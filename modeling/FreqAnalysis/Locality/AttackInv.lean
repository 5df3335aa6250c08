import FreqAnalysis.Base.Ranking
import FreqAnalysis.Locality.Attack

/-!
# Invariants of the attack

What `stat_db` leaves behind, where the keys on the queues come from, and what
every step of `main_loop` keeps: `uniq` gets a key exactly when `q_t` gets an
entry, the entries ever pushed are distinct, and the two queues grow and shrink
together.
-/

namespace FreqAnalysis.Locality
open Base

/-! ### Where queue entries come from -/

theorem dbNodes_map_key (db : SortedMap Fp (List Byte)) :
    (dbNodes db).map Node.key = db.keys := by
  simp [dbNodes, SortedMap.keys, List.map_map, Function.comp_def]

theorem mem_initial {k : ℕ} {db : SortedMap Fp (List Byte)} {n : Node} (h : n ∈ initial k db) :
    n ∈ dbNodes db :=
  Heap.mem_select cmp ((Heap.drain_perm cmp _).mem_iff.mp (List.mem_reverse.mp h))

theorem key_mem_of_mem_initial {k : ℕ} {db : SortedMap Fp (List Byte)} {n : Node}
    (h : n ∈ initial k db) : n.key ∈ db.keys := by
  rw [← dbNodes_map_key]
  exact List.mem_map.mpr ⟨n, mem_initial h, rfl⟩

theorem topRanked_length {k : ℕ} (hk : 0 < k) (ns : List Node) :
    (topRanked k ns).length = min k ns.length := by
  rw [topRanked, stackOf, List.length_reverse, (Heap.drain_perm cmp _).length_eq]
  exact (Heap.select_selection cmp_strictWeak hk ns).size

theorem topRanked_ranks {k : ℕ} (hk : 0 < k) (ns : List Node) :
    ∃ rest, Ranks Node.count ns (topRanked k ns ++ rest) := by
  obtain ⟨rest, hperm, hdesc⟩ :=
    (Heap.select_selection cmp_strictWeak hk ns).ranked cmp_strictWeak
  refine ⟨rest, hperm, hdesc.imp ?_⟩
  intro a b hab
  exact (cmp_eq_false_iff b a).mp hab

theorem initial_length {k : ℕ} (hk : 0 < k) (db : SortedMap Fp (List Byte)) :
    (initial k db).length = min k db.entries.length := by
  have hlen : (dbNodes db).length = db.entries.length := List.length_map _
  rw [initial, topRanked_length hk, hlen]

theorem initial_nodup {k : ℕ} (hk : 0 < k) (db : SortedMap Fp (List Byte)) :
    ((initial k db).map Node.key).Nodup := by
  obtain ⟨rest, hranks⟩ := topRanked_ranks hk (dbNodes db)
  have hkeys : ((topRanked k (dbNodes db) ++ rest).map Node.key).Nodup := by
    rw [(hranks.perm.map Node.key).nodup_iff, dbNodes_map_key]
    exact db.nodup_keys
  rw [List.map_append] at hkeys
  exact (List.nodup_append.mp hkeys).1

def recordKeys (db : SortedMap Fp (List Byte)) : List Fp :=
  db.entries.flatMap fun e => (records e.2).map Prod.fst

theorem key_mem_recordKeys {db : SortedMap Fp (List Byte)} {x : Fp} {n : Node}
    (h : n ∈ valueNodes (db.get x)) : n.key ∈ recordKeys db := by
  cases hget : db.get x with
  | none =>
    rw [hget] at h
    exact absurd h List.not_mem_nil
  | some v =>
    rw [hget] at h
    obtain ⟨r, hr, rfl⟩ := List.mem_map.mp h
    exact List.mem_flatMap.mpr
      ⟨(x, v), (db.get_eq_some_iff x v).mp hget, List.mem_map.mpr ⟨r, hr, rfl⟩⟩

theorem mem_neighbourPairs {A : Params} {side : Side} {x y : Fp} {p : Node × Node}
    (h : p ∈ neighbourPairs A side x y) :
    p.1.key ∈ recordKeys (A.sideO side) ∧ p.2.key ∈ recordKeys (A.sideT side) := by
  have hzip := List.of_mem_zip (List.mem_reverse.mp h)
  have hmem : ∀ {es : List Node} {n : Node}, n ∈ Heap.drain cmp (Heap.select cmp A.v es) → n ∈ es :=
    fun hn => Heap.mem_select cmp ((Heap.drain_perm cmp _).mem_iff.mp hn)
  exact ⟨key_mem_recordKeys (hmem hzip.1), key_mem_recordKeys (hmem hzip.2)⟩

/-! ### After stat_db -/

structure StatInv (A : Params) (seen : List (Fp × List Byte)) (s : State) : Prop where
  total : s.total = seen.length
  uniq : ∀ x, x ∈ s.uniq.keys ↔ x ∈ s.pushed
  pushed : s.pushed.Sublist (seen.map Prod.fst)
  queue : s.qT.map (fun e => e.node.key) = s.pushed
  paired : s.qO.map Entry.origin = s.qT.map Entry.origin
  unranked : ∀ e ∈ s.qO, ∀ i, e.origin ≠ .rank i
  known : ∀ e ∈ s.qO, e.node.key ∈ A.origin.keys
  missed : ∃ missed : List Fp, missed.Sublist (seen.map Prod.fst) ∧ s.common = s.leak + missed.length ∧
    ∀ t ∈ missed, ∀ p, A.plain t = some p → p ∉ A.origin.keys
  fresh : s.involve = 0 ∧ s.correct = 0
  unleaked : A.leakage = none → s.pushed = []

theorem plainKey_of_plain {A : Params} {exs t p : Fp} (h : A.plain t = some p) :
    plainKey A exs t = p := by
  unfold Params.plain at h
  unfold plainKey
  cases htruth : A.truth with
  | own =>
    rw [htruth] at h
    exact Option.some.inj h
  | relate db start =>
    rw [htruth] at h
    simp only [h, Option.getD_some]

theorem forall_mem_concat {α : Type} {Q : α → Prop} {l : List α} {a : α} (hl : ∀ x ∈ l, Q x)
    (ha : Q a) : ∀ x ∈ l ++ [a], Q x :=
  List.forall_mem_append.mpr ⟨hl, List.forall_mem_singleton.mpr ha⟩

theorem StatInv.skip {A : Params} {seen : List (Fp × List Byte)} {s : State}
    (h : StatInv A seen s) (e : Fp × List Byte) :
    StatInv A (seen ++ [e]) { s with total := s.total + 1 } := by
  obtain ⟨missed, hsub, hcommon, hmiss⟩ := h.missed
  have hgrow : (seen.map Prod.fst).Sublist ((seen ++ [e]).map Prod.fst) := by
    rw [List.map_append]
    exact List.sublist_append_left _ _
  have htotal : s.total + 1 = (seen ++ [e]).length := by
    rw [h.total, List.length_append, List.length_singleton]
  exact ⟨htotal, h.uniq, h.pushed.trans hgrow, h.queue, h.paired, h.unranked, h.known,
    ⟨missed, hsub.trans hgrow, hcommon, hmiss⟩, h.fresh, h.unleaked⟩

theorem StatInv.miss {A : Params} {seen : List (Fp × List Byte)} {s : State}
    (h : StatInv A seen s) (e : Fp × List Byte)
    (hmissed : ∀ p, A.plain e.1 = some p → p ∉ A.origin.keys) :
    StatInv A (seen ++ [e]) { s with total := s.total + 1, common := s.common + 1 } := by
  obtain ⟨missed, hsub, hcommon, hmiss⟩ := h.missed
  have hs := h.skip e
  refine ⟨hs.total, h.uniq, hs.pushed, h.queue, h.paired, h.unranked, h.known,
    ⟨missed ++ [e.1], ?_, ?_, forall_mem_concat hmiss hmissed⟩, h.fresh, h.unleaked⟩
  · rw [List.map_append]
    exact hsub.append_right _
  · simp only [hcommon, List.length_append, List.length_singleton]
    omega

theorem StatInv.hit {A : Params} {seen : List (Fp × List Byte)} {s : State}
    (h : StatInv A seen s) (e : Fp × List Byte) (hleak : A.leakage ≠ none) (o : Node) (count n : ℕ)
    (hknown : o.key ∈ A.origin.keys) :
    StatInv A (seen ++ [e]) { s.pushPair o ⟨e.1, count⟩ (.leaked n) with
      total := s.total + 1, common := s.common + 1, leak := s.leak + 1 } := by
  obtain ⟨missed, hsub, hcommon, hmiss⟩ := h.missed
  have hs := h.skip e
  have hgrow : (seen.map Prod.fst).Sublist ((seen ++ [e]).map Prod.fst) := by
    rw [List.map_append]
    exact List.sublist_append_left _ _
  refine ⟨hs.total, ?_, ?_, ?_, ?_,
    forall_mem_concat h.unranked (fun _ hrank => Origin.noConfusion hrank),
    forall_mem_concat h.known hknown, ⟨missed, hsub.trans hgrow, ?_, hmiss⟩, h.fresh,
    fun hnone => absurd hnone hleak⟩
  · intro x
    simp only [State.pushPair, SortedMap.mem_keys_put, List.mem_append, List.mem_singleton,
      h.uniq x]
    exact or_comm
  · rw [List.map_append]
    exact h.pushed.append_right _
  · simp only [State.pushPair, List.map_append, List.map_cons, List.map_nil, h.queue]
  · simp only [State.pushPair, List.map_append, List.map_cons, List.map_nil, h.paired]
  · simp only [hcommon]
    omega

theorem StatInv.step {A : Params} {seen : List (Fp × List Byte)} {st : State × Fp}
    (h : StatInv A seen st.1) (e : Fp × List Byte) :
    StatInv A (seen ++ [e]) (statStep A st e).1 := by
  unfold statStep
  by_cases hleak : (A.leakage.getD fun _ => false) st.1.total = true
  · have hsome : A.leakage ≠ none := by
      intro hnone
      rw [hnone] at hleak
      exact Bool.noConfusion hleak
    simp only [hleak, if_true]
    cases hget : A.origin.get (plainKey A st.2 e.1) with
    | none =>
      -- leaked, but not in the auxiliary database
      apply h.miss e
      intro p hp
      rw [plainKey_of_plain hp] at hget
      exact (A.origin.get_eq_none_iff p).mp hget
    | some value =>
      exact h.hit e hsome ⟨plainKey A st.2 e.1, counter value⟩ (counter e.2) _
        ((A.origin.mem_keys_iff _).mpr ⟨value, hget⟩)
  · simp only [hleak, Bool.false_eq_true, if_false]
    exact h.skip e

theorem StatInv.foldl {A : Params} (es : List (Fp × List Byte)) {seen : List (Fp × List Byte)}
    {st : State × Fp} (h : StatInv A seen st.1) :
    StatInv A (seen ++ es) (es.foldl (statStep A) st).1 := by
  induction es generalizing seen st with
  | nil => simpa using h
  | cons e es ih =>
    rw [← List.singleton_append, ← List.append_assoc]
    exact ih (h.step e)

theorem statDb_inv (A : Params) : StatInv A A.target.entries (statDb A) := by
  have h0 : StatInv A [] (State.empty, exsStart A).1 := by
    refine ⟨rfl, fun _ => Iff.rfl, List.Sublist.refl _, rfl, rfl, ?_, ?_,
      ⟨[], List.Sublist.refl _, rfl, ?_⟩, ⟨rfl, rfl⟩, fun _ => rfl⟩
    · exact fun e he => absurd he List.not_mem_nil
    · exact fun e he => absurd he List.not_mem_nil
    · exact fun t ht => absurd ht List.not_mem_nil
  exact h0.foldl A.target.entries

theorem statDb_unleaked {A : Params} (h : A.leakage = none) :
    (statDb A).pushed = [] ∧ (statDb A).qO = [] ∧ (statDb A).qT = [] := by
  have hs := statDb_inv A
  have hp := hs.unleaked h
  have hT : (statDb A).qT = [] := by
    have := hs.queue
    rw [hp] at this
    exact List.map_eq_nil_iff.mp this
  have hO : (statDb A).qO = [] := by
    have := hs.paired
    rw [hT] at this
    exact List.map_eq_nil_iff.mp this
  exact ⟨hp, hO, hT⟩

/-! ### Keys on the queues -/

def Offers (O T : Fp → Prop) : Pc → Prop
  | .initO tmp => ∀ n ∈ tmp, O n.key
  | .initT tmp => ∀ n ∈ tmp, T n.key
  | .infer _ rest => ∀ p ∈ rest, O p.1.key ∧ T p.2.key
  | .head => True
  | .done => True

structure Sources (A : Params) (O T : Fp → Prop) : Prop where
  origin : ∀ x ∈ A.origin.keys, O x
  sideO : ∀ side, ∀ x ∈ recordKeys (A.sideO side), O x
  target : ∀ x ∈ A.target.keys, T x
  sideT : ∀ side, ∀ x ∈ recordKeys (A.sideT side), T x

structure Drawn (O T : Fp → Prop) (s : State) : Prop where
  pc : Offers O T s.pc
  qO : ∀ e ∈ s.qO, O e.node.key
  pushed : ∀ x ∈ s.pushed, T x

theorem offers_neighbourPairs {A : Params} {O T : Fp → Prop} (hs : Sources A O T) (side : Side)
    (x y : Fp) : Offers O T (.infer side (neighbourPairs A side x y)) := by
  intro p hp
  obtain ⟨h1, h2⟩ := mem_neighbourPairs hp
  exact ⟨hs.sideO side _ h1, hs.sideT side _ h2⟩

theorem offers_enter {A : Params} {O T : Fp → Prop} (hs : Sources A O T) (side : Side)
    (s : State) : Offers O T (enter A side s).pc := by
  unfold enter
  split
  · exact offers_neighbourPairs hs side _ _
  · exact fun p hp => absurd hp List.not_mem_nil

theorem Reachable.drawn {A : Params} {O T : Fp → Prop} (hs : Sources A O T) {s : State}
    (h : Reachable A s) : Drawn O T s := by
  refine h.induct (I := Drawn O T) ?_ ?_
  · have hst := statDb_inv A
    refine ⟨?_, fun e he => hs.origin _ (hst.known e he), fun x hx => hs.target x ?_⟩
    · unfold Locality.start
      cases A.leakage with
      | none => exact fun n hn => hs.origin _ (key_mem_of_mem_initial hn)
      | some r => trivial
    · exact hst.pushed.subset hx
  · intro s s' _ hd hmove
    have hpc := hd.pc
    cases hmove with
    | enterT _ => exact ⟨fun n hn => hs.target _ (key_mem_of_mem_initial hn), hd.qO, hd.pushed⟩
    | pushO n tmp heq =>
      rw [heq] at hpc
      obtain ⟨hn, htmp⟩ := List.forall_mem_cons.mp hpc
      exact ⟨htmp, forall_mem_concat hd.qO hn, hd.pushed⟩
    | enterLoop _ | stop _ _ => exact ⟨trivial, hd.qO, hd.pushed⟩
    | pushT n tmp heq =>
      rw [heq] at hpc
      obtain ⟨hn, htmp⟩ := List.forall_mem_cons.mp hpc
      exact ⟨htmp, hd.qO, forall_mem_concat hd.pushed hn⟩
    | judge o t qO qT _ _ _ => exact ⟨offers_neighbourPairs hs .left _ _, hd.qO, hd.pushed⟩
    | skip side o t rest heq _ =>
      rw [heq] at hpc
      exact ⟨(List.forall_mem_cons.mp hpc).2, hd.qO, hd.pushed⟩
    | push side o t rest heq _ _ =>
      rw [heq] at hpc
      obtain ⟨hn, hrest⟩ := List.forall_mem_cons.mp hpc
      exact ⟨hrest, forall_mem_concat hd.qO hn.1, forall_mem_concat hd.pushed hn.2⟩
    | leave side rest _ =>
      cases side with
      | left => exact ⟨offers_enter hs .right s, hd.qO, hd.pushed⟩
      | right => exact ⟨trivial, fun e he => hd.qO e (List.mem_of_mem_tail he), hd.pushed⟩

/-! ### The set and the queue -/

def waiting (A : Params) : Pc → List Fp
  | .initO _ => (initial A.u A.target).map Node.key
  | .initT tmp => tmp.map Node.key
  | .infer _ _ => []
  | .head => []
  | .done => []

structure InferInv (A : Params) (s : State) : Prop where
  uniq : ∀ x, x ∈ s.uniq.keys ↔ x ∈ s.pushed
  fresh : (s.pushed ++ waiting A s.pc).Nodup
  queue : s.pushed.drop s.involve = s.qT.map (fun e => e.node.key)
  involve_le : s.involve ≤ s.pushed.length
  busy : ∀ side rest, s.pc = .infer side rest → s.qO ≠ [] ∧ s.qT ≠ []

theorem mem_keys_put_concat {uniq : SortedMap Fp Unit} {pushed : List Fp}
    (h : ∀ x, x ∈ uniq.keys ↔ x ∈ pushed) (k x : Fp) :
    x ∈ (uniq.put k ()).keys ↔ x ∈ pushed ++ [k] := by
  rw [SortedMap.mem_keys_put, List.mem_append, List.mem_singleton, h x]
  exact or_comm

theorem drop_concat {pushed : List Fp} {n : ℕ} {ks : List Fp} (hn : n ≤ pushed.length)
    (h : pushed.drop n = ks) (k : Fp) : (pushed ++ [k]).drop n = ks ++ [k] := by
  rw [List.drop_append_of_le_length hn, h]

theorem InferInv.start (A : Params) : InferInv A (start A) := by
  have hs := statDb_inv A
  have hpc : ∀ side rest, ¬ (Locality.start A).pc = .infer side rest := by
    intro side rest heq
    unfold Locality.start at heq
    cases hl : A.leakage with
    | none =>
      rw [hl] at heq
      exact Pc.noConfusion heq
    | some r =>
      rw [hl] at heq
      exact Pc.noConfusion heq
  refine ⟨hs.uniq, ?_, ?_, ?_, fun side rest heq => absurd heq (hpc side rest)⟩
  · have hnodup : (statDb A).pushed.Nodup := hs.pushed.nodup A.target.nodup_keys
    show ((statDb A).pushed ++ waiting A (Locality.start A).pc).Nodup
    unfold Locality.start
    cases hl : A.leakage with
    | none =>
      rw [(statDb_unleaked hl).1]
      exact initial_nodup A.u_pos A.target
    | some r =>
      show ((statDb A).pushed ++ []).Nodup
      rw [List.append_nil]
      exact hnodup
  · show (statDb A).pushed.drop (statDb A).involve = _
    rw [hs.fresh.1]
    exact hs.queue.symm
  · show (statDb A).involve ≤ _
    rw [hs.fresh.1]
    exact Nat.zero_le _

theorem enter_frame (A : Params) (side : Side) (s : State) :
    (enter A side s).qO = s.qO ∧ (enter A side s).qT = s.qT ∧ (enter A side s).uniq = s.uniq ∧
      (enter A side s).pushed = s.pushed ∧ (enter A side s).involve = s.involve ∧
      ∃ rest, (enter A side s).pc = .infer side rest := by
  refine ⟨rfl, rfl, rfl, rfl, rfl, ?_⟩
  unfold enter
  split
  · exact ⟨_, rfl⟩
  · exact ⟨[], rfl⟩

theorem InferInv.involve_lt {A : Params} {s : State} (h : InferInv A s) (hT : s.qT ≠ []) :
    s.involve < s.pushed.length := by
  have hq := h.queue
  by_contra hge
  rw [List.drop_of_length_le (by omega)] at hq
  exact hT (List.map_eq_nil_iff.mp hq.symm)

theorem InferInv.moves {A : Params} {s s' : State} (h : InferInv A s) (hmove : Moves A s s') :
    InferInv A s' := by
  have hfresh := h.fresh
  have hbusy := h.busy
  cases hmove with
  | enterT heq | pushO n tmp heq | enterLoop heq | stop heq _ =>
    rw [heq] at hfresh
    exact ⟨h.uniq, hfresh, h.queue, h.involve_le, fun _ _ hpc => Pc.noConfusion hpc⟩
  | pushT n tmp heq =>
    rw [heq] at hfresh
    refine ⟨mem_keys_put_concat h.uniq n.key, ?_, ?_, ?_, fun _ _ hpc => Pc.noConfusion hpc⟩
    · show ((s.pushed ++ [n.key]) ++ tmp.map Node.key).Nodup
      rw [List.append_assoc]
      exact hfresh
    · simp only [State.pushT, List.map_append, List.map_cons, List.map_nil]
      exact drop_concat h.involve_le h.queue n.key
    · simp only [State.pushT, List.length_append]
      have := h.involve_le
      omega
  | judge o t qO qT heq hO hT =>
    rw [heq] at hfresh
    refine ⟨h.uniq, hfresh, h.queue, h.involve_le, fun _ _ _ => ⟨?_, ?_⟩⟩
    · show s.qO ≠ []
      rw [hO]
      exact List.cons_ne_nil _ _
    · show s.qT ≠ []
      rw [hT]
      exact List.cons_ne_nil _ _
  | skip side o t rest heq _ =>
    rw [heq] at hfresh
    exact ⟨h.uniq, hfresh, h.queue, h.involve_le, fun _ _ _ => hbusy side _ heq⟩
  | push side o t rest heq hnew _ =>
    rw [heq] at hfresh
    have hnot : t.key ∉ s.pushed := fun hmem => hnew ((h.uniq t.key).mpr hmem)
    refine ⟨mem_keys_put_concat h.uniq t.key, ?_, ?_, ?_, fun _ _ _ => ⟨?_, ?_⟩⟩
    · show ((s.pushed ++ [t.key]) ++ []).Nodup
      rw [List.append_nil]
      have hold : s.pushed.Nodup := (List.nodup_append.mp hfresh).1
      rw [← List.concat_eq_append]
      exact hold.concat hnot
    · simp only [State.pushPair, List.map_append, List.map_cons, List.map_nil]
      exact drop_concat h.involve_le h.queue t.key
    · simp only [State.pushPair, List.length_append]
      have := h.involve_le
      omega
    · simp [State.pushPair]
    · simp [State.pushPair]
  | leave side rest heq =>
    obtain ⟨hO, hT⟩ := hbusy side rest heq
    rw [heq] at hfresh
    cases side with
    | left =>
      obtain ⟨rest', hpc⟩ := (enter_frame A .right s).2.2.2.2.2
      refine ⟨h.uniq, ?_, h.queue, h.involve_le, fun _ _ _ => ⟨hO, hT⟩⟩
      show (s.pushed ++ waiting A (enter A .right s).pc).Nodup
      rw [hpc]
      exact hfresh
    | right =>
      refine ⟨h.uniq, hfresh, ?_, h.involve_lt hT, fun _ _ hpc => Pc.noConfusion hpc⟩
      show s.pushed.drop (s.involve + 1) = s.qT.tail.map (fun e => e.node.key)
      rw [← List.tail_drop, h.queue, List.map_tail]

theorem Reachable.inferInv {A : Params} {s : State} (h : Reachable A s) : InferInv A s :=
  h.induct (InferInv.start A) (fun _ _ _ hi hmove => hi.moves hmove)

/-! ### The queues alone -/

def Pc.PastInit : Pc → Prop
  | .initO _ => False
  | .initT _ => False
  | .head => True
  | .infer _ _ => True
  | .done => True

/-- `I` while `q_o` is filled, `J` while `q_t` is filled, `K` from then on. -/
def ByPhase (I J : List Node → Prop) (K : Prop) : Pc → Prop
  | .initO tmp => I tmp
  | .initT tmp => J tmp
  | .head => K
  | .infer _ _ => K
  | .done => K

theorem byPhase_iff {I J : List Node → Prop} {K : Prop} {pc : Pc} (h : pc.PastInit) :
    ByPhase I J K pc ↔ K := by
  cases pc with
  | initO tmp => exact absurd h id
  | initT tmp => exact absurd h id
  | head | infer side rest | done => exact Iff.rfl

/-- The rule for invariants of the two queues: what each of the pushes and the
pop at the end of an iteration have to preserve. -/
theorem Reachable.queues {A : Params} {I J : List Entry → List Entry → List Node → Prop}
    {K : List Entry → List Entry → Prop}
    (unleaked : A.leakage = none → I [] [] (initial A.u A.origin))
    (leaked : A.leakage ≠ none → K (statDb A).qO (statDb A).qT)
    (enterT : ∀ qO qT, I qO qT [] → J qO qT (initial A.u A.target))
    (pushO : ∀ qO qT n tmp, I qO qT (n :: tmp) → I (qO ++ [⟨n, .rank qO.length⟩]) qT tmp)
    (enterLoop : ∀ qO qT, J qO qT [] → K qO qT)
    (pushT : ∀ qO qT n tmp, J qO qT (n :: tmp) → J qO (qT ++ [⟨n, .rank qT.length⟩]) tmp)
    (push : ∀ qO qT o t n, qO ≠ [] ∧ qT ≠ [] → qO.length + 1 ≤ A.w → K qO qT →
      K (qO ++ [⟨o, .neighbour n⟩]) (qT ++ [⟨t, .neighbour n⟩]))
    (pop : ∀ qO qT, qO ≠ [] ∧ qT ≠ [] → K qO qT → K qO.tail qT.tail)
    {s : State} (h : Reachable A s) :
    ByPhase (I s.qO s.qT) (J s.qO s.qT) (K s.qO s.qT) s.pc := by
  refine h.induct (I := fun s => ByPhase (I s.qO s.qT) (J s.qO s.qT) (K s.qO s.qT) s.pc) ?_ ?_
  · unfold Locality.start
    cases hl : A.leakage with
    | none =>
      obtain ⟨-, hO, hT⟩ := statDb_unleaked hl
      simp only [Option.isNone_none, if_true, hO, hT]
      exact unleaked hl
    | some r => exact leaked (by simp [hl])
  · intro s s' hr hi hmove
    have hbusy := hr.inferInv.busy
    cases hmove with
    | enterT heq =>
      rw [heq] at hi
      exact enterT _ _ hi
    | pushO n tmp heq =>
      rw [heq] at hi
      exact pushO _ _ n tmp hi
    | enterLoop heq =>
      rw [heq] at hi
      exact enterLoop _ _ hi
    | pushT n tmp heq =>
      rw [heq] at hi
      exact pushT _ _ n tmp hi
    | stop heq _ | judge o t qO qT heq _ _ | skip side o t rest heq _ =>
      rw [heq] at hi
      exact hi
    | push side o t rest heq _ hlimit =>
      rw [heq] at hi
      exact push _ _ o t _ (hbusy side _ heq) hlimit hi
    | leave side rest heq =>
      rw [heq] at hi
      cases side with
      | left =>
        obtain ⟨rest', hpc⟩ := (enter_frame A .right s).2.2.2.2.2
        show ByPhase _ _ _ (enter A .right s).pc
        rw [hpc]
        exact hi
      | right => exact pop _ _ (hbusy .right rest heq) hi

/-- The sizes of `q_o` and `q_t` after the initialisation. -/
def sizeO (A : Params) : ℕ :=
  if A.leakage.isNone then (initial A.u A.origin).length else (statDb A).qO.length

def sizeT (A : Params) : ℕ :=
  if A.leakage.isNone then (initial A.u A.target).length else (statDb A).qT.length

theorem sizeO_of_unleaked {A : Params} (hl : A.leakage = none) :
    sizeO A = min A.u A.origin.entries.length := by
  simp only [sizeO, hl, Option.isNone_none, if_true]
  exact initial_length A.u_pos A.origin

theorem sizeT_of_unleaked {A : Params} (hl : A.leakage = none) :
    sizeT A = min A.u A.target.entries.length := by
  simp only [sizeT, hl, Option.isNone_none, if_true]
  exact initial_length A.u_pos A.target

theorem sizes_of_leaked {A : Params} (hl : A.leakage ≠ none) : sizeO A = sizeT A := by
  have hlen := congrArg List.length (statDb_inv A).paired
  have hsome : ¬ A.leakage.isNone = true := by simpa using hl
  simp only [sizeO, sizeT, hsome]
  simpa using hlen

def FillO (A : Params) (qO qT : List Entry) (tmp : List Node) : Prop :=
  A.leakage = none ∧ qO.length + tmp.length = sizeO A ∧ qT = []

def FillT (A : Params) (qO qT : List Entry) (tmp : List Node) : Prop :=
  A.leakage = none ∧ qO.length = sizeO A ∧ qT.length + tmp.length = sizeT A

def Balanced (A : Params) (qO qT : List Entry) : Prop :=
  qT.length + sizeO A = qO.length + sizeT A ∧ qO.length ≤ max A.w (sizeO A)

theorem fillO_start {A : Params} (hl : A.leakage = none) :
    FillO A [] [] (initial A.u A.origin) := ⟨hl, by simp [sizeO, hl], rfl⟩

theorem length_push {q : List Entry} {n : Node} {tmp : List Node} {size : ℕ}
    (h : q.length + (n :: tmp).length = size) (e : Entry) :
    (q ++ [e]).length + tmp.length = size := by
  rw [List.length_cons] at h
  rw [List.length_append, List.length_singleton]
  omega

theorem FillO.push {A : Params} {qO qT : List Entry} {n : Node} {tmp : List Node}
    (h : FillO A qO qT (n :: tmp)) (e : Entry) : FillO A (qO ++ [e]) qT tmp :=
  ⟨h.1, length_push h.2.1 e, h.2.2⟩

theorem FillO.enterT {A : Params} {qO qT : List Entry} (h : FillO A qO qT []) :
    FillT A qO qT (initial A.u A.target) := by
  obtain ⟨hl, hO, hT⟩ := h
  exact ⟨hl, hO, by simp [hT, sizeT, hl]⟩

theorem FillT.push {A : Params} {qO qT : List Entry} {n : Node} {tmp : List Node}
    (h : FillT A qO qT (n :: tmp)) (e : Entry) : FillT A qO (qT ++ [e]) tmp :=
  ⟨h.1, h.2.1, length_push h.2.2 e⟩

theorem balanced_of_sizes {A : Params} {qO qT : List Entry} (hO : qO.length = sizeO A)
    (hT : qT.length = sizeT A) : Balanced A qO qT := by
  refine ⟨by omega, ?_⟩
  rw [hO]
  exact le_max_right _ _

theorem Reachable.sizes {A : Params} {s : State} (h : Reachable A s) :
    ByPhase (FillO A s.qO s.qT) (FillT A s.qO s.qT) (Balanced A s.qO s.qT) s.pc := by
  refine h.queues (fun hl => fillO_start hl) ?_ (fun _ _ hfill => hfill.enterT)
    (fun _ _ _ _ hfill => hfill.push _) ?_ (fun _ _ _ _ hfill => hfill.push _) ?_ ?_
  · intro hl
    have hsome : ¬ A.leakage.isNone = true := by simpa using hl
    exact balanced_of_sizes (if_neg hsome).symm (if_neg hsome).symm
  · rintro qO qT ⟨-, hO, hT⟩
    exact balanced_of_sizes hO hT
  · rintro qO qT o t n - hlimit ⟨hdiff, -⟩
    unfold Balanced
    rw [List.length_append, List.length_append, List.length_singleton, List.length_singleton]
    exact ⟨by omega, le_max_of_le_left hlimit⟩
  · -- both queues lose their front
    rintro qO qT ⟨hO, hT⟩ ⟨hdiff, hmax⟩
    have h1 := List.length_pos_iff.mpr hO
    have h2 := List.length_pos_iff.mpr hT
    unfold Balanced
    rw [List.length_tail, List.length_tail]
    exact ⟨by omega, by omega⟩

end FreqAnalysis.Locality
