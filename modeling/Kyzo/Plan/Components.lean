import Kyzo.Plan.Graph

/-!
# What reachability and the components of a graph are

The worklist collects exactly what is reachable, and the components of a graph hold each node once,
together with the nodes it reaches and is reached by.
-/

namespace Kyzo

open List Std TreeMap

variable {T : Type} [Ord T] [TransOrd T] [LawfulEqOrd T]

/-- Reachability in a graph. -/
abbrev Reaches (graph : Graph T) : T → T → Prop := Tarjan.Reach (children graph)

/-! ## Reachability -/

lemma collectChildren_spec (kids : List T) (collected : TreeSet T) (pending : List T) (v : T) :
    (v ∈ (collectChildren collected pending kids).1 ↔ v ∈ collected ∨ v ∈ kids) ∧
    (v ∈ (collectChildren collected pending kids).2 ↔ v ∈ pending ∨ v ∈ kids ∧ v ∉ collected) := by
  induction kids generalizing collected pending with
  | nil => simp [collectChildren]
  | cons el kids ih =>
    rw [collectChildren]
    split_ifs with hel
    · rw [(ih _ _).1, (ih _ _).2]
      by_cases hv : v = el
      · subst hv
        simp [hel]
      · simp [hv]
    · rw [(ih _ _).1, (ih _ _).2]
      by_cases hv : v = el
      · subst hv
        simp [hel]
      · simp [hv, Ne.symm hv]

variable {graph : Graph T}

/-- **Run.**  If what is collected is reachable and closed but for what is pending, then in the end
exactly what is reachable is collected. -/
theorem mem_reachableLoop {start : T} {collected : TreeSet T} {pending : List T}
    (hstart : start ∈ collected) (hpending : ∀ v ∈ pending, v ∈ collected)
    (hsound : ∀ v ∈ collected, Reaches graph start v)
    (hclosed : ∀ v ∈ collected, v ∉ pending → ∀ w ∈ children graph v, w ∈ collected) (v : T) :
    v ∈ reachableLoop graph collected pending ↔ Reaches graph start v := by
  induction collected, pending using reachableLoop.induct graph with
  | case1 collected =>
    rw [reachableLoop]
    refine ⟨hsound v, fun hreach => ?_⟩
    induction hreach with
    | refl => exact hstart
    | tail _ hedge ih => exact hclosed _ ih not_mem_nil _ hedge
  | case2 collected at' pending next ih =>
    have hspec := collectChildren_spec (children graph at') collected pending
    rw [reachableLoop]
    refine ih ((hspec start).1.mpr (.inl hstart)) (fun w hw => ?_) (fun w hw => ?_)
      fun w hw hfree u hu => ?_
    · rcases (hspec w).2.mp hw with hw | ⟨hw, -⟩
      · exact (hspec w).1.mpr (.inl (hpending w (.tail _ hw)))
      · exact (hspec w).1.mpr (.inr hw)
    · rcases (hspec w).1.mp hw with hw | hw
      · exact hsound w hw
      · exact (hsound at' (hpending at' (.head _))).tail hw
    · rw [(hspec w).2, not_or, not_and_not_right] at hfree
      rcases (hspec w).1.mp hw with hw | hw
      · by_cases hat : w = at'
        · exact (hspec u).1.mpr (.inr (hat ▸ hu))
        · refine (hspec u).1.mpr (.inl (hclosed w hw (fun hmem => ?_) u hu))
          exact hfree.1 ((mem_cons.mp hmem).resolve_left hat)
      · by_cases hat : w = at'
        · exact (hspec u).1.mpr (.inr (hat ▸ hu))
        · refine (hspec u).1.mpr (.inl (hclosed w (hfree.2 hw) (fun hmem => ?_) u hu))
          exact hfree.1 ((mem_cons.mp hmem).resolve_left hat)

/-- **Reachability.** -/
theorem mem_reachableComponents (graph : Graph T) (start v : T) :
    v ∈ reachableComponents graph start ↔ Reaches graph start v := by
  have hmem : ∀ w, w ∈ (∅ : TreeSet T).insert start ↔ start = w := by
    intro w
    rw [TreeSet.mem_insert, LawfulEqOrd.compare_eq_iff_eq]
    exact or_iff_left TreeSet.not_mem_emptyc
  refine mem_reachableLoop ((hmem start).mpr rfl) (fun w hw => ?_) (fun w hw => ?_)
    (fun w hw hfree => ?_) v
  · exact (hmem w).mpr (mem_singleton.mp hw).symm
  · exact (hmem w).mp hw ▸ .refl
  · exact absurd (mem_singleton.mpr ((hmem w).mp hw).symm) hfree

/-! ## Components -/

/-- **Components** of a graph: they hold its nodes, and two nodes stand in one component exactly if
each reaches the other. -/
structure IsComponents (graph : Graph T) (comps : List (List T)) : Prop where
  mem_iff : ∀ v, (∃ i, InGroup comps v i) ↔ v ∈ graph
  nonempty : ∀ c ∈ comps, c ≠ []
  same_iff : ∀ u v i j, InGroup comps u i → InGroup comps v j →
    (i = j ↔ Reaches graph u v ∧ Reaches graph v u)

omit [TransOrd T] [LawfulEqOrd T] in
lemma IsComponents.unique {comps : List (List T)} (h : IsComponents graph comps) (v : T)
    (i j : ℕ) (hi : InGroup comps v i) (hj : InGroup comps v j) : i = j :=
  (h.same_iff v v i j hi hj).mpr ⟨.refl, .refl⟩

namespace TarjanScc

lemma group_spec {n : ℕ} (low : Fin n → ℕ) (nodes : List (Fin n)) (k : ℕ) :
    (nodes.foldl (fun (m : TreeMap ℕ (List ℕ)) idx =>
        m.alter (low idx) fun group => some (group.getD [] ++ [idx.val])) ∅)[k]? =
      if ∃ idx ∈ nodes, low idx = k then
        some ((nodes.filter fun idx => low idx = k).map Fin.val)
      else none := by
  induction nodes using reverseRecOn with
  | nil => simp
  | append_singleton nodes idx ih =>
    rw [foldl_append, foldl_cons, foldl_nil, getElem?_alter]
    by_cases hk : low idx = k
    · subst hk
      have hlast : ∃ idx' ∈ nodes ++ [idx], low idx' = low idx := ⟨idx, by simp, rfl⟩
      rw [if_pos hlast, ih, filter_append]
      by_cases hex : ∃ idx' ∈ nodes, low idx' = low idx
      · rw [if_pos hex]
        simp
      · have hnil : (nodes.filter fun idx' => low idx' = low idx) = [] := by
          rw [filter_eq_nil_iff]
          exact fun idx' hidx' heq => hex ⟨idx', hidx', of_decide_eq_true heq⟩
        rw [if_neg hex, hnil]
        simp
    · rw [ih]
      simp [hk, filter_append, or_and_right, exists_or]

/-- The label of a node after the search. -/
def label (t : TarjanScc) (i : Fin t.graph.length) : ℕ :=
  (Tarjan.run t.successors (finRange t.graph.length)).low i

lemma run_spec (t : TarjanScc) : ∃ rows : List (ℕ × List ℕ),
    t.run = rows.map Prod.snd ∧ (rows.map Prod.fst).Nodup ∧
    ∀ k group, (k, group) ∈ rows ↔ (∃ i, t.label i = k) ∧
      group = ((finRange t.graph.length).filter fun i => t.label i = k).map Fin.val := by
  refine ⟨((finRange t.graph.length).foldl (fun (m : TreeMap ℕ (List ℕ)) idx =>
    m.alter (t.label idx) fun group => some (group.getD [] ++ [idx.val])) ∅).toList, rfl, ?_,
    fun k group => ?_⟩
  · exact map_fst_toList_eq_keys ▸ keys_nodup _
  · rw [mem_toList_iff_getElem?_eq_some, group_spec]
    by_cases hex : ∃ i, t.label i = k
    · rw [if_pos (by simpa using hex), Option.some_inj]
      exact ⟨fun h => ⟨hex, h.symm⟩, fun h => h.2.symm⟩
    · rw [if_neg (by simpa using hex)]
      exact ⟨fun h => absurd h (Option.some_ne_none _).symm, fun h => absurd h.1 hex⟩

end TarjanScc

section IndexGraph

variable (graph)

/-- The position of a node among the keys. -/
def keyIndex : TreeMap T ℕ := collect graph.keys.zipIdx

variable {v : T} {i : ℕ}

lemma keyIndex_eq_some : (keyIndex graph)[v]? = some i ↔ graph.keys[i]? = some v := by
  have hnodup : (graph.keys.zipIdx.map Prod.fst).Nodup := by
    rw [zipIdx_map_fst]
    exact keys_nodup graph
  rw [keyIndex, collect_eq_some_iff fun _ _ _ => eq_of_mem_of_nodup hnodup, mem_zipIdx_iff_getElem?]

/-- The index graph. -/
def indexGraph : List (List ℕ) :=
  graph.toList.map fun row => row.2.filterMap fun v => (keyIndex graph)[v]?

omit [TransOrd T] [LawfulEqOrd T] in
lemma indexGraph_length : (indexGraph graph).length = graph.keys.length := by
  rw [indexGraph, length_map, ← map_fst_toList_eq_keys, length_map]

variable {u : T}

lemma mem_indexGraph {j : ℕ} (hu : graph.keys[i]? = some u) (hv : graph.keys[j]? = some v) :
    (∃ row, (indexGraph graph)[i]? = some row ∧ j ∈ row) ↔ v ∈ children graph u := by
  rw [← map_fst_toList_eq_keys, getElem?_map, Option.map_eq_some_iff] at hu
  obtain ⟨⟨_, vs⟩, hrow, rfl⟩ := hu
  have hget : graph.get? _ = some vs :=
    mem_toList_iff_getElem?_eq_some.mp (mem_of_getElem? hrow)
  rw [indexGraph, getElem?_map, hrow, children, hget]
  simp only [Option.map_some, Option.some.injEq, exists_eq_left', Option.getD_some,
    mem_filterMap, keyIndex_eq_some]
  constructor
  · rintro ⟨w, hw, hwj⟩
    cases hv.symm.trans hwj
    exact hw
  · exact fun hmem => ⟨v, hmem, hv⟩

lemma indexGraph_inRange :
    ∀ tos ∈ indexGraph graph, ∀ tgt ∈ tos, tgt < (indexGraph graph).length := by
  intro tos htos tgt htgt
  obtain ⟨row, -, rfl⟩ := mem_map.mp htos
  obtain ⟨v, -, hv⟩ := mem_filterMap.mp htgt
  rw [indexGraph_length]
  exact (List.getElem_of_getElem? ((keyIndex_eq_some graph).mp hv)).1

/-- The validated index graph. -/
def indexScc : TarjanScc := ⟨indexGraph graph, indexGraph_inRange graph⟩

variable {i j : Fin (indexScc graph).graph.length}

lemma mem_successors (hu : graph.keys[i.val]? = some u) (hv : graph.keys[j.val]? = some v) :
    j ∈ (indexScc graph).successors i ↔ v ∈ children graph u := by
  rw [← mem_indexGraph graph hu hv, TarjanScc.successors, mem_map]
  have hrow : (indexGraph graph)[i.val]? = some ((indexScc graph).graph.get i) :=
    getElem?_eq_getElem i.isLt
  constructor
  · rintro ⟨tgt, -, rfl⟩
    exact ⟨_, hrow, tgt.property⟩
  · rintro ⟨row, hrow', hj⟩
    cases hrow.symm.trans hrow'
    exact ⟨⟨j.val, hj⟩, mem_attach .., rfl⟩

lemma mem_of_children (h : v ∈ children graph u) : u ∈ graph.keys := by
  rw [children] at h
  rcases hget : graph.get? u with _ | vs
  · rw [hget] at h
    exact absurd h not_mem_nil
  · exact mem_keys.mpr (mem_iff_isSome_getElem?.mpr
      (Option.isSome_iff_exists.mpr ⟨vs, hget⟩))

lemma key_of_index (i : Fin (indexScc graph).graph.length) : ∃ v, graph.keys[i.val]? = some v := by
  have hlt : i.val < graph.keys.length := indexGraph_length graph ▸ i.isLt
  exact ⟨_, getElem?_eq_getElem hlt⟩

lemma index_of_key (hv : v ∈ graph.keys) :
    ∃ i : Fin (indexScc graph).graph.length, graph.keys[i.val]? = some v := by
  obtain ⟨i, hi⟩ := mem_iff_getElem?.mp hv
  have hlt := (List.getElem_of_getElem? hi).1
  exact ⟨⟨i, (indexGraph_length graph).symm ▸ hlt⟩, hi⟩

lemma reach_index_iff (hu : graph.keys[i.val]? = some u) (hv : graph.keys[j.val]? = some v) :
    Tarjan.Reach (indexScc graph).successors i j ↔ Reaches graph u v := by
  constructor
  · intro hreach
    induction hreach generalizing v with
    | refl => exact Option.some.inj (hu.symm.trans hv) ▸ .refl
    | @tail b c _ hedge ih =>
      obtain ⟨w, hw⟩ := key_of_index graph b
      exact (ih hw).tail ((mem_successors graph hw hv).mp hedge)
  · intro hreach
    induction hreach generalizing j with
    | refl =>
      have hij : i = j := Fin.ext ((List.getElem?_inj (List.getElem_of_getElem? hu).1
        (keys_nodup graph)).mp (hu.trans hv.symm))
      exact hij ▸ .refl
    | @tail w c _ hedge ih =>
      obtain ⟨k, hk⟩ := index_of_key graph (mem_of_children graph hedge)
      exact (ih hk).tail ((mem_successors graph hk hv).mpr hedge)

/-- The key at an index, as the code looks it up. -/
def keyAt (i : ℕ) : Except GraphInvariantError T :=
  match graph.keys[i]? with
  | some v => .ok v
  | none => .error .sccMemberOutOfRange

omit [TransOrd T] [LawfulEqOrd T] in
lemma keyAt_eq_ok {i : ℕ} {v : T} : keyAt graph i = .ok v ↔ graph.keys[i]? = some v := by
  rw [keyAt]
  rcases graph.keys[i]? with _ | w
  · exact ⟨(fun h => nomatch h), (fun h => nomatch h)⟩
  · rw [Except.ok.injEq, Option.some_inj]

lemma stronglyConnectedComponents_eq : stronglyConnectedComponents graph =
      (indexScc graph).run.mapM fun group => group.mapM (keyAt graph) := by
  have hnew : TarjanScc.new (indexGraph graph) = .ok (indexScc graph) :=
    dif_pos (indexGraph_inRange graph)
  have hcode : stronglyConnectedComponents graph = (TarjanScc.new (indexGraph graph)).bind
      fun scc => scc.run.mapM fun group => group.mapM (keyAt graph) := rfl
  rw [hcode, hnew]
  rfl

/-- **Components.** -/
theorem stronglyConnectedComponents_spec :
    ∃ comps, stronglyConnectedComponents graph = .ok comps ∧ IsComponents graph comps := by
  obtain ⟨rows, hrun, hnodup, hrows⟩ := (indexScc graph).run_spec
  -- A group holds the indices under its label.
  have hgroup : ∀ k group, (k, group) ∈ rows → ∀ a : ℕ, a ∈ group ↔
      ∃ i : Fin (indexScc graph).graph.length, (indexScc graph).label i = k ∧ i.val = a := by
    intro k group hmem a
    rw [((hrows k group).mp hmem).2]
    simp [mem_filter]
  obtain ⟨comps, hcomps⟩ : ∃ comps, stronglyConnectedComponents graph = .ok comps := by
    rw [stronglyConnectedComponents_eq]
    refine mapM_exists fun group hgroup' => mapM_exists fun a ha => ?_
    rw [hrun, mem_map] at hgroup'
    obtain ⟨⟨k, _⟩, hmem, rfl⟩ := hgroup'
    obtain ⟨i, -, rfl⟩ := (hgroup k _ hmem a).mp ha
    obtain ⟨v, hv⟩ := key_of_index graph i
    exact ⟨v, (keyAt_eq_ok graph).mpr hv⟩
  -- A component holds the keys under its label.
  have hcomp : ∀ (n : ℕ) (c : List T), comps[n]? = some c → ∃ k group, rows[n]? = some (k, group) ∧
      ∀ v, v ∈ c ↔ ∃ i : Fin (indexScc graph).graph.length, (indexScc graph).label i = k ∧
        graph.keys[i.val]? = some v := by
    intro n c hc
    rw [stronglyConnectedComponents_eq] at hcomps
    obtain ⟨group, hn, hmapM⟩ := (mapM_getElem? hcomps).mp hc
    rw [hrun, getElem?_map, Option.map_eq_some_iff] at hn
    obtain ⟨⟨k, _⟩, hrow, rfl⟩ := hn
    obtain ⟨hin, hout⟩ := mapM_mem hmapM
    refine ⟨k, _, hrow, fun v => ⟨fun hv => ?_, ?_⟩⟩
    · obtain ⟨a, ha, hkey⟩ := hout v hv
      obtain ⟨i, hlabel, rfl⟩ := (hgroup k _ (mem_of_getElem? hrow) a).mp ha
      exact ⟨i, hlabel, (keyAt_eq_ok graph).mp hkey⟩
    · rintro ⟨i, hlabel, hkey⟩
      obtain ⟨w, hw, hkey'⟩ :=
        hin i.val ((hgroup k _ (mem_of_getElem? hrow) i.val).mpr ⟨i, hlabel, rfl⟩)
      obtain rfl := Option.some.inj (((keyAt_eq_ok graph).mp hkey').symm.trans hkey)
      exact hw
  have hlabel : ∀ i j, (indexScc graph).label i = (indexScc graph).label j ↔
      Tarjan.Reach (indexScc graph).successors i j ∧ Tarjan.Reach (indexScc graph).successors j i :=
    Tarjan.low_run_eq_iff _ mem_finRange
  refine ⟨comps, hcomps, fun v => ⟨?_, fun hv => ?_⟩, fun c hc => ?_, ?_⟩
  · rintro ⟨n, c, hc, hv⟩
    obtain ⟨k, group, -, hmem⟩ := hcomp n c hc
    obtain ⟨i, -, hkey⟩ := (hmem v).mp hv
    exact mem_keys.mp (mem_of_getElem? hkey)
  · obtain ⟨i, hi⟩ := index_of_key graph (mem_keys.mpr hv)
    have hrow := (hrows ((indexScc graph).label i) _).mpr ⟨⟨i, rfl⟩, rfl⟩
    rw [stronglyConnectedComponents_eq, hrun] at hcomps
    obtain ⟨c, hc, hmapM⟩ := (mapM_mem hcomps).1 _ (mem_map_of_mem hrow)
    obtain ⟨w, hw, hkey⟩ := (mapM_mem hmapM).1 i.val
      ((hgroup _ _ hrow i.val).mpr ⟨i, rfl, rfl⟩)
    obtain rfl := Option.some.inj (((keyAt_eq_ok graph).mp hkey).symm.trans hi)
    obtain ⟨n, hn⟩ := mem_iff_getElem?.mp hc
    exact ⟨n, c, hn, hw⟩
  · obtain ⟨n, hn⟩ := mem_iff_getElem?.mp hc
    obtain ⟨k, group, hrow, hmem⟩ := hcomp n c hn
    obtain ⟨⟨i, hi⟩, -⟩ := (hrows k group).mp (mem_of_getElem? hrow)
    obtain ⟨v, hv⟩ := key_of_index graph i
    exact ne_nil_of_mem ((hmem v).mpr ⟨i, hi, hv⟩)
  · rintro u v n m ⟨c, hc, hu⟩ ⟨d, hd, hv⟩
    obtain ⟨k, group, hrow, hmem⟩ := hcomp n c hc
    obtain ⟨k', group', hrow', hmem'⟩ := hcomp m d hd
    obtain ⟨i, hik, hiu⟩ := (hmem u).mp hu
    obtain ⟨j, hjk, hjv⟩ := (hmem' v).mp hv
    rw [← reach_index_iff graph hiu hjv, ← reach_index_iff graph hjv hiu, ← hlabel i j, hik, hjk]
    have hkeyn : (rows.map Prod.fst)[n]? = some k := by rw [getElem?_map, hrow]; rfl
    have hkeym : (rows.map Prod.fst)[m]? = some k' := by rw [getElem?_map, hrow']; rfl
    rw [← List.getElem?_inj (List.getElem_of_getElem? hkeyn).1 hnodup, hkeyn, hkeym,
      Option.some_inj]

/-- No key stands twice in a component. -/
theorem nodup_component {comps : List (List T)} {c : List T}
    (h : stronglyConnectedComponents graph = .ok comps) (hc : c ∈ comps) : c.Nodup := by
  obtain ⟨rows, hrun, -, hrows⟩ := (indexScc graph).run_spec
  rw [stronglyConnectedComponents_eq, hrun] at h
  obtain ⟨group, hgroup, hkeys⟩ := (mapM_mem h).2 c hc
  obtain ⟨⟨k, _⟩, hmem, rfl⟩ := mem_map.mp hgroup
  obtain ⟨-, rfl⟩ := (hrows k _).mp hmem
  have hnodup := ((nodup_finRange _).filter fun i => (indexScc graph).label i = k).map
    Fin.val_injective
  refine .of_map Except.ok (mapM_eq_ok_iff.mp hkeys ▸ hnodup.map_on fun i hi j _ heq => ?_)
  obtain ⟨v, -, hv⟩ := (mapM_mem hkeys).1 i hi
  have hiv := (keyAt_eq_ok graph).mp hv
  have hjv := (keyAt_eq_ok graph).mp (heq ▸ hv)
  exact (List.getElem?_inj (List.getElem_of_getElem? hiv).1 (keys_nodup graph)).mp
    (hiv.trans hjv.symm)

/-- An edge that leaves the keys leads nowhere. -/
theorem reaches_within (hv : v ∈ graph) :
    Tarjan.Reach (fun w => (children graph w).filter graph.contains) u v ↔ Reaches graph u v := by
  constructor
  · exact Relation.ReflTransGen.mono (fun _ _ hedge => (mem_filter.mp hedge).1) u v
  · intro h
    induction h with
    | refl => exact .refl
    | @tail b c _ hedge ih =>
      exact (ih (mem_keys.mp (mem_of_children graph hedge))).tail
        (mem_filter.mpr ⟨hedge, contains_iff_mem.mpr hv⟩)

/-- **Components.**  On every graph the search answers with a partition of the keys, in which two
keys stand together exactly if each reaches the other along edges between keys. -/
theorem stronglyConnectedComponents_partition : ∃ comps,
    stronglyConnectedComponents graph = .ok comps ∧ comps.flatten ~ graph.keys ∧ [] ∉ comps ∧
    ∀ u ∈ graph, ∀ v ∈ graph, (∃ c ∈ comps, u ∈ c ∧ v ∈ c) ↔
      Tarjan.Reach (fun w => (children graph w).filter graph.contains) u v ∧
      Tarjan.Reach (fun w => (children graph w).filter graph.contains) v u := by
  obtain ⟨comps, hok, hcomps⟩ := stronglyConnectedComponents_spec graph
  have hnodup : comps.flatten.Nodup := by
    refine nodup_flatten.mpr ⟨fun c => nodup_component graph hok, ?_⟩
    rw [pairwise_iff_getElem]
    intro i j hi hj hlt v hvi hvj
    exact hlt.ne (hcomps.unique v i j ⟨_, getElem?_eq_getElem hi, hvi⟩
      ⟨_, getElem?_eq_getElem hj, hvj⟩)
  have hmem : ∀ v, v ∈ comps.flatten ↔ v ∈ graph := by
    intro v
    rw [← hcomps.mem_iff, mem_flatten]
    constructor
    · rintro ⟨c, hc, hv⟩
      obtain ⟨i, hi⟩ := mem_iff_getElem?.mp hc
      exact ⟨i, c, hi, hv⟩
    · rintro ⟨i, c, hi, hv⟩
      exact ⟨c, mem_of_getElem? hi, hv⟩
  refine ⟨comps, hok, ?_, fun hnil => hcomps.nonempty [] hnil rfl, fun u hu v hv => ?_⟩
  · exact (perm_ext_iff_of_nodup hnodup (keys_nodup graph)).mpr fun v =>
      (hmem v).trans mem_keys.symm
  · rw [reaches_within graph hu, reaches_within graph hv]
    obtain ⟨i, c, hi, huc⟩ := (hcomps.mem_iff u).mpr hu
    obtain ⟨j, d, hj, hvd⟩ := (hcomps.mem_iff v).mpr hv
    rw [← hcomps.same_iff u v i j ⟨c, hi, huc⟩ ⟨d, hj, hvd⟩]
    constructor
    · rintro ⟨e, he, hue, hve⟩
      obtain ⟨k, hk⟩ := mem_iff_getElem?.mp he
      exact (hcomps.unique u i k ⟨c, hi, huc⟩ ⟨e, hk, hue⟩).trans
        (hcomps.unique v k j ⟨e, hk, hve⟩ ⟨d, hj, hvd⟩)
    · rintro rfl
      cases hi.symm.trans hj
      exact ⟨c, mem_of_getElem? hi, huc, hvd⟩

/-- Two keys on a cycle, and an edge that leaves the keys. -/
theorem stronglyConnectedComponents_partition_cycle : ∃ comps,
    stronglyConnectedComponents (ofList [(0, [1]), (1, [0, 7])] : Graph ℕ) = .ok comps ∧
    comps.flatten ~ [0, 1] := by
  obtain ⟨comps, hok, hperm, -⟩ :=
    stronglyConnectedComponents_partition (ofList [(0, [1]), (1, [0, 7])] : Graph ℕ)
  exact ⟨comps, hok, hperm⟩

end IndexGraph

end Kyzo
