import Kyzo.Plan.Condensation
import Kyzo.Plan.Dependencies

/-!
# What the stratifier accepts and returns

It refuses exactly the programs in which a poisoned dependency that is reachable from the entry lies
on a cycle.  What it returns holds the reachable definitions once each, dependencies in the same
stratum or an earlier one, poisoned dependencies in an earlier one, and the entry in the last.
-/

namespace Kyzo

open List Std TreeMap StratifiedNormalFormProgram Relation.ReflTransGen StratifyError

namespace NormalFormProgram

variable (p : NormalFormProgram)

/-- A name that the entry depends on, directly or through others. -/
def Reachable (v : Symbol) : Prop := Relation.ReflTransGen p.DependsOn p.entryName v

/-! ## The pruned graphs -/

variable {k : Symbol}

lemma filter_getElem? {α : Type} {m : TreeMap Symbol α} {f : Symbol → α → Bool} {x : α} :
    (m.filter f)[k]? = some x ↔ m[k]? = some x ∧ f k x = true := by
  rw [← mem_toList_iff_getElem?_eq_some, toList_filter, mem_filter,
    mem_toList_iff_getElem?_eq_some]

lemma reduceToGraph_getElem? {g : StratifiedGraph Symbol} {vs : List Symbol} :
    (reduceToGraph g)[k]? = some vs ↔ ∃ tos, g[k]? = some tos ∧ tos.keys = vs := by
  rw [reduceToGraph, TreeMap.getElem?_map, Option.map_eq_some_iff]

variable {tos : TreeMap Symbol Bool} {v : Symbol}

lemma mem_keys_iff : v ∈ tos.keys ↔ ∃ b, tos[v]? = some b := by
  rw [TreeMap.mem_keys, mem_iff_isSome_getElem?, Option.isSome_iff_exists]

variable {k v : Symbol}

lemma dependsOn_iff : p.DependsOn k v ↔ ∃ b, LabelledEdge p.toGraph k v b := by
  simp only [labelledEdge_toGraph]
  constructor
  · intro h
    by_cases hpoison : p.PoisonedOn k v
    · exact ⟨true, h, fun _ => hpoison, fun _ => rfl⟩
    · exact ⟨false, h, (fun h => nomatch h), fun h => absurd h hpoison⟩
  · exact fun ⟨_, h, _⟩ => h

lemma mem_children_toGraph : v ∈ children (reduceToGraph p.toGraph) k ↔ p.DependsOn k v := by
  have hget : (reduceToGraph p.toGraph).get? k = (reduceToGraph p.toGraph)[k]? := rfl
  rw [dependsOn_iff, children, hget]
  constructor
  · intro hv
    rcases hvs : (reduceToGraph p.toGraph)[k]? with _ | vs
    · rw [hvs] at hv
      exact absurd hv not_mem_nil
    · rw [hvs] at hv
      obtain ⟨tos, htos, rfl⟩ := reduceToGraph_getElem?.mp hvs
      obtain ⟨b, hb⟩ := mem_keys_iff.mp hv
      exact ⟨b, tos, htos, hb⟩
  · rintro ⟨b, tos, htos, hb⟩
    rw [reduceToGraph_getElem?.mpr ⟨tos, htos, rfl⟩]
    exact mem_keys_iff.mpr ⟨b, hb⟩

lemma reaches_toGraph :
    Reaches (reduceToGraph p.toGraph) k v ↔ Relation.ReflTransGen p.DependsOn k v := by
  have hedges : (fun a b => b ∈ children (reduceToGraph p.toGraph) a) = p.DependsOn :=
    funext₂ fun a b => propext p.mem_children_toGraph
  rw [Reaches, Tarjan.Reach, hedges]

/-- The nodes that the prune keeps. -/
def reachable : TreeSet Symbol := reachableComponents (reduceToGraph p.toGraph) p.entryName

lemma mem_reachable : v ∈ p.reachable ↔ p.Reachable v := by
  rw [reachable, mem_reachableComponents, reaches_toGraph, Reachable]

/-- The labelled graph after the prune. -/
def pruned : StratifiedGraph Symbol := p.toGraph.filter fun k _ => k ∈ p.reachable

/-- The plain graph after the prune. -/
def prunedGraph : Graph Symbol := (reduceToGraph p.toGraph).filter fun k _ => k ∈ p.reachable

lemma pruned_getElem? : p.pruned[k]? = some tos ↔ p.toGraph[k]? = some tos ∧ p.Reachable k := by
  rw [pruned, filter_getElem?, decide_eq_true_iff, mem_reachable]

lemma labelledEdge_pruned {b : Bool} : LabelledEdge p.pruned k v b ↔
      p.Reachable k ∧ p.DependsOn k v ∧ (b = true ↔ p.PoisonedOn k v) := by
  rw [← labelledEdge_toGraph, LabelledEdge]
  simp only [pruned_getElem?]
  constructor
  · rintro ⟨tos, ⟨htos, hk⟩, hv⟩
    exact ⟨hk, tos, htos, hv⟩
  · rintro ⟨hk, tos, htos, hv⟩
    exact ⟨tos, ⟨htos, hk⟩, hv⟩

lemma mem_prunedGraph : k ∈ p.prunedGraph ↔ p.Reachable k ∧ ∃ d, p.lookup k = some d := by
  rw [mem_iff_isSome_getElem?, Option.isSome_iff_exists]
  simp only [prunedGraph, filter_getElem?, decide_eq_true_iff, mem_reachable,
    reduceToGraph_getElem?, toGraph_getElem?]
  constructor
  · rintro ⟨_, ⟨_, ⟨d, hd, -⟩, -⟩, hk⟩
    exact ⟨hk, d, hd⟩
  · rintro ⟨hk, d, hd⟩
    exact ⟨_, ⟨_, ⟨d, hd, rfl⟩, rfl⟩, hk⟩

lemma mem_children_pruned : v ∈ children p.prunedGraph k ↔ p.Reachable k ∧ p.DependsOn k v := by
  have hget : p.prunedGraph.get? k = p.prunedGraph[k]? := rfl
  have hold : (reduceToGraph p.toGraph).get? k = (reduceToGraph p.toGraph)[k]? := rfl
  rw [← mem_children_toGraph, children, children, hget, hold]
  have hfilter : ∀ vs, p.prunedGraph[k]? = some vs ↔
      (reduceToGraph p.toGraph)[k]? = some vs ∧ p.Reachable k := by
    intro vs
    rw [prunedGraph, filter_getElem?, decide_eq_true_iff, mem_reachable]
  rcases hvs : (reduceToGraph p.toGraph)[k]? with _ | vs
  · have hnone : p.prunedGraph[k]? = none := by
      rw [Option.eq_none_iff_forall_ne_some]
      intro vs hvs'
      cases hvs.symm.trans ((hfilter vs).mp hvs').1
    simp [hnone]
  · by_cases hk : p.Reachable k
    · rw [(hfilter vs).mpr ⟨hvs, hk⟩]
      exact (and_iff_right hk).symm
    · have hnone : p.prunedGraph[k]? = none := by
        rw [Option.eq_none_iff_forall_ne_some]
        exact fun vs' hvs' => hk ((hfilter vs').mp hvs').2
      simp [hnone, hk]

lemma reaches_pruned (hk : p.Reachable k) :
    Reaches p.prunedGraph k v ↔ Relation.ReflTransGen p.DependsOn k v := by
  constructor
  · intro h
    induction h with
    | refl => exact .refl
    | tail _ hedge ih => exact ih.tail (p.mem_children_pruned.mp hedge).2
  · intro h
    induction h with
    | refl => exact .refl
    | tail hpath hedge ih => exact ih.tail (p.mem_children_pruned.mpr ⟨hk.trans hpath, hedge⟩)

lemma defined_of_dependsOn (h : p.DependsOn k v) : ∃ d, p.lookup k = some d := by
  rcases h with ⟨_, rules, hlookup, -⟩ | ⟨fixed, _, hlookup, -⟩
  · exact ⟨_, hlookup⟩
  · exact ⟨_, hlookup⟩

lemma dependsOn_of_poisonedOn (h : p.PoisonedOn k v) : p.DependsOn k v := by
  rcases h with ⟨negated, hreads, -⟩ | hinput
  · exact .inl ⟨negated, hreads⟩
  · exact .inr hinput

lemma graphEdge_pruned {q : Bool} :
    GraphEdge p.pruned k v q ↔ p.Reachable k ∧ p.DependsOn k v ∧ (q = true → p.PoisonedOn k v) := by
  simp only [GraphEdge, labelledEdge_pruned]
  constructor
  · rintro ⟨b, ⟨hk, hdep, hflag⟩, hq⟩
    exact ⟨hk, hdep, fun hqt => hflag.mp (hq hqt)⟩
  · rintro ⟨hk, hdep, hq⟩
    obtain ⟨b, hb⟩ := p.dependsOn_iff.mp hdep
    obtain ⟨-, hflag⟩ := p.labelledEdge_toGraph.mp hb
    exact ⟨b, ⟨hk, hdep, hflag⟩, fun hqt => hflag.mpr (hq hqt)⟩

/-- The refusal, said of the program: a poisoned dependency on a cycle. -/
def PoisonedCycle : Prop :=
  ∃ k v, p.Reachable k ∧ p.PoisonedOn k v ∧ Relation.ReflTransGen p.DependsOn v k

/-! ## Layers -/

variable {p} {comps : List (List Symbol)}

lemma mem_pruned : k ∈ p.pruned ↔ k ∈ p.prunedGraph := by
  rw [mem_prunedGraph, mem_iff_isSome_getElem?, Option.isSome_iff_exists]
  simp only [pruned_getElem?, toGraph_getElem?]
  constructor
  · rintro ⟨_, ⟨d, hd, -⟩, hk⟩
    exact ⟨hk, d, hd⟩
  · rintro ⟨hk, d, hd⟩
    exact ⟨_, ⟨d, hd, rfl⟩, hk⟩

section

variable (hcomps : IsComponents p.prunedGraph comps)

include hcomps

lemma inGroup_iff {k : Symbol} :
    (∃ i, InGroup comps k i) ↔ p.Reachable k ∧ ∃ d, p.lookup k = some d :=
  (hcomps.mem_iff k).trans p.mem_prunedGraph

lemma verifyNoCycle_pruned : verifyNoCycle p.pruned comps = .ok () ↔ ¬p.PoisonedCycle := by
  rw [verifyNoCycle_eq_ok]
  constructor
  · rintro h ⟨k, v, hk, hpoison, hback⟩
    have hdep := p.dependsOn_of_poisonedOn hpoison
    have hv : p.Reachable v := hk.tail hdep
    -- What lies on the cycle is defined, so it has a component.
    obtain ⟨i, hi⟩ := (inGroup_iff hcomps).mpr ⟨hk, p.defined_of_dependsOn hdep⟩
    obtain ⟨j, hj⟩ : ∃ j, InGroup comps v j := by
      refine (inGroup_iff hcomps).mpr ⟨hv, ?_⟩
      rcases cases_head hback with rfl | ⟨w, hw, -⟩
      · exact p.defined_of_dependsOn hdep
      · exact p.defined_of_dependsOn hw
    have hsame : i = j := (hcomps.same_iff k v i j hi hj).mpr
      ⟨(p.reaches_pruned hk).mpr (.single hdep), (p.reaches_pruned hv).mpr hback⟩
    subst hsame
    exact h k v i hi hj (p.labelledEdge_pruned.mpr ⟨hk, hdep, fun _ => hpoison, fun _ => rfl⟩)
  · rintro h k v i hk hv hedge
    obtain ⟨hreach, hdep, hflag⟩ := p.labelledEdge_pruned.mp hedge
    have hback := ((hcomps.same_iff k v i i hk hv).mp rfl).2
    exact h ⟨k, v, hreach, hflag.mp rfl, (p.reaches_pruned (hreach.tail hdep)).mp hback⟩

end

/-- The layer of a name: the place of its component. -/
def InLayer (comps : List (List Symbol)) (layers : List (List ℕ)) (k : Symbol) (s : ℕ) : Prop :=
  ∃ i, InGroup comps k i ∧ InGroup layers i s

/-- **Layers** of a program: what the sort of the reduced graph gives. -/
structure IsLayering (p : NormalFormProgram) (comps : List (List Symbol)) (layers : List (List ℕ)) :
    Prop where
  components : IsComponents p.prunedGraph comps
  reduced : ∃ reduced, Reduces p.pruned comps reduced ∧ Layered reduced comps.length layers
  noCycle : ¬p.PoisonedCycle

variable {layers : List (List ℕ)}

namespace IsLayering

variable (h : IsLayering p comps layers) {k v : Symbol} {s t : ℕ}

include h

lemma unique (hs : InLayer comps layers k s) (ht : InLayer comps layers k t) : s = t := by
  obtain ⟨i, hi, hs⟩ := hs
  obtain ⟨j, hj, ht⟩ := ht
  obtain rfl := h.components.unique k i j hi hj
  obtain ⟨reduced, -, hlayered⟩ := h.reduced
  exact inGroup_unique hlayered.nodup hs ht

lemma exists_iff : (∃ s, InLayer comps layers k s) ↔ p.Reachable k ∧ ∃ d, p.lookup k = some d := by
  rw [← inGroup_iff h.components]
  obtain ⟨reduced, -, hlayered⟩ := h.reduced
  constructor
  · rintro ⟨s, i, hi, -⟩
    exact ⟨i, hi⟩
  · rintro ⟨i, hi⟩
    obtain ⟨group, hgroup, -⟩ := id hi
    have hmem := (hlayered.mem_iff i).mpr (List.getElem_of_getElem? hgroup).1
    obtain ⟨layer, hlayer, hin⟩ := mem_flatten.mp hmem
    obtain ⟨s, hs⟩ := getElem?_of_mem hlayer
    exact ⟨s, i, hi, layer, hs, hin⟩

lemma order (hk : InLayer comps layers k s) (hv : InLayer comps layers v t)
    (hdep : p.DependsOn k v) : s ≤ t ∧ (p.PoisonedOn k v → s < t) := by
  classical
  obtain ⟨hreach, -⟩ := h.exists_iff.mp ⟨s, hk⟩
  obtain ⟨reduced, hreduces, hlayered⟩ := h.reduced
  obtain ⟨i, hi, hs⟩ := id hk
  obtain ⟨j, hj, ht⟩ := id hv
  by_cases hij : i = j
  · subst hij
    obtain rfl := inGroup_unique hlayered.nodup hs ht
    refine ⟨le_rfl, fun hpoison => absurd ⟨k, v, hreach, hpoison, ?_⟩ h.noCycle⟩
    have hback := ((h.components.same_iff k v i i hi hj).mp rfl).2
    exact (p.reaches_pruned (hreach.tail hdep)).mp hback
  · have hedge : GraphEdge reduced i j (decide (p.PoisonedOn k v)) :=
      (hreduces.edge_iff i j _).mpr ⟨hij, k, v, hi, hj,
        p.graphEdge_pruned.mpr ⟨hreach, hdep, of_decide_eq_true⟩⟩
    obtain ⟨b, hb, hflag⟩ := hedge
    obtain ⟨layer, hlayer, hjmem⟩ := ht
    obtain ⟨s', earlier, hearlier, himem, hle, hlt⟩ := hlayered.order t layer hlayer j hjmem i b hb
    obtain rfl := inGroup_unique hlayered.nodup hs ⟨earlier, hearlier, himem⟩
    exact ⟨hle, fun hpoison => hlt (hflag (decide_eq_true hpoison))⟩

lemma le_of_reflTransGen (hpath : Relation.ReflTransGen p.DependsOn k v)
    (hk : InLayer comps layers k s) (hv : InLayer comps layers v t) : s ≤ t := by
  induction hpath using head_induction_on generalizing s with
  | refl => exact (h.unique hk hv).le
  | head hdep hpath ih =>
    rename_i k w
    obtain ⟨hreach, -⟩ := h.exists_iff.mp ⟨s, hk⟩
    obtain ⟨u, hw⟩ : ∃ u, InLayer comps layers w u := by
      rcases cases_head hpath with rfl | ⟨x, hx, -⟩
      · exact ⟨t, hv⟩
      · exact h.exists_iff.mpr ⟨hreach.tail hdep, p.defined_of_dependsOn hx⟩
    exact (h.order hk hw hdep).1.trans (ih hw)

lemma entry : InLayer comps layers p.entryName 0 := by
  obtain ⟨s, hs⟩ := h.exists_iff.mpr ⟨.refl, p.entry, by rw [lookup, if_pos rfl]⟩
  obtain ⟨reduced, -, hlayered⟩ := h.reduced
  obtain ⟨_, -, layer, hlayer, -⟩ := id hs
  have hpos : 0 < layers.length := Nat.zero_lt_of_lt (List.getElem_of_getElem? hlayer).1
  obtain ⟨j, hj⟩ := exists_mem_of_ne_nil _ (hlayered.nonempty _ (getElem_mem hpos))
  have hjlt := (hlayered.mem_iff j).mp (mem_flatten.mpr ⟨_, getElem_mem hpos, hj⟩)
  obtain ⟨v, hv⟩ := exists_mem_of_ne_nil _ (h.components.nonempty _ (getElem_mem hjlt))
  have hvlayer : InLayer comps layers v 0 :=
    ⟨j, ⟨_, getElem?_eq_getElem hjlt, hv⟩, _, getElem?_eq_getElem hpos, hj⟩
  obtain ⟨hreach, -⟩ := h.exists_iff.mp ⟨0, hvlayer⟩
  obtain rfl : s = 0 := Nat.le_zero.mp (h.le_of_reflTransGen hreach hs hvlayer)
  exact hs

end IsLayering

/-! ## The distribution -/

/-- A stratum that holds a definition. -/
def Holds (strata : List NormalFormStratum) (s : ℕ) (k : Symbol) (d : NormalFormRulesOrFixed) :
    Prop :=
  ∃ stratum, strata[s]? = some stratum ∧ stratum[k]? = some d

variable {strata : List NormalFormStratum}

lemma holds_set {s t : ℕ} {k' : Symbol} {d d' : NormalFormRulesOrFixed}
    {stratum : NormalFormStratum} (hs : strata[s]? = some stratum) :
    Holds (strata.set s (stratum.insert k d)) t k' d' ↔
      (s = t ∧ k = k' ∧ d = d') ∨ (¬(s = t ∧ k = k') ∧ Holds strata t k' d') := by
  have hlt := (List.getElem_of_getElem? hs).1
  rw [Holds, getElem?_set]
  by_cases hst : s = t
  · subst hst
    simp only [if_true, if_pos hlt, Option.some.injEq, exists_eq_left', Holds, hs,
      TreeMap.getElem?_insert, LawfulEqOrd.compare_eq_iff_eq]
    by_cases hk : k = k'
    · simp [hk]
    · simp [hk]
  · simp [hst, Holds]

section

variable (h : IsLayering p comps layers)

include h

/-- **Step.**  A definition goes to its layer, or nowhere if its name has none. -/
theorem distribute_spec (hlen : strata.length = layers.length)
    (k : Symbol) (d : NormalFormRulesOrFixed) :
    ∃ out, distribute (sccIndices comps) (stratumOf layers) strata (k, d) = .ok out ∧
      out.length = layers.length ∧
      ∀ s k' d', Holds out s k' d' ↔ (k = k' ∧ InLayer comps layers k s ∧ d = d') ∨
        (¬(k = k' ∧ InLayer comps layers k s) ∧ Holds strata s k' d') := by
  obtain ⟨reduced, -, hlayered⟩ := h.reduced
  have hidx : ∀ i, (sccIndices comps)[k]? = some i ↔ InGroup comps k i :=
    fun i => positions_eq_some_iff h.components.unique
  have hplace : ∀ i s, (stratumOf layers)[i]? = some s ↔ InGroup layers i s :=
    fun i s => positions_eq_some_iff fun _ _ _ => inGroup_unique hlayered.nodup
  simp only [distribute]
  rcases hcomp : (sccIndices comps)[k]? with _ | i
  · -- The entry does not reach this name.
    refine ⟨strata, rfl, hlen, fun s k' d' => ?_⟩
    have hno : ∀ s, ¬InLayer comps layers k s := by
      rintro s ⟨i, hi, -⟩
      cases hcomp.symm.trans ((hidx i).mpr hi)
    simp [hno]
  · obtain ⟨s, hs⟩ := h.exists_iff.mpr ((inGroup_iff h.components).mp ⟨i, (hidx i).mp hcomp⟩)
    obtain ⟨i', hi', hs'⟩ := id hs
    obtain rfl := h.components.unique k i i' ((hidx i).mp hcomp) hi'
    have hlt : s < strata.length := by
      obtain ⟨layer, hlayer, -⟩ := hs'
      exact hlen ▸ (List.getElem_of_getElem? hlayer).1
    have hget : strata[s]? = some strata[s] := getElem?_eq_getElem hlt
    simp only [(hplace i s).mpr hs', hget]
    refine ⟨_, rfl, by rw [length_set, hlen], fun t k' d' => ?_⟩
    have hlayer : InLayer comps layers k t ↔ s = t :=
      ⟨fun ht => h.unique hs ht, fun heq => heq ▸ hs⟩
    rw [holds_set hget, hlayer]
    tauto

/-- **Run.**  Each layer's stratum holds the definitions of its names. -/
theorem foldlM_distribute (rows : List (Symbol × NormalFormRulesOrFixed))
    (hnodup : (rows.map Prod.fst).Nodup) :
    ∃ out, rows.foldlM (distribute (sccIndices comps) (stratumOf layers))
        (replicate layers.length ∅) = .ok out ∧
      out.length = layers.length ∧
      ∀ s k d, Holds out s k d ↔ (k, d) ∈ rows ∧ InLayer comps layers k s := by
  induction rows using reverseRecOn with
  | nil =>
    refine ⟨_, rfl, length_replicate, fun s k d => iff_of_false ?_ ?_⟩
    · rintro ⟨stratum, hstratum, hk⟩
      obtain rfl := eq_of_mem_replicate (mem_of_getElem? hstratum)
      simp at hk
    · exact fun ⟨hmem, _⟩ => absurd hmem not_mem_nil
  | append_singleton rows row ih =>
    obtain ⟨k, d⟩ := row
    rw [map_append, nodup_append] at hnodup
    obtain ⟨hrows, -, hfresh⟩ := hnodup
    obtain ⟨strata, hstrata, hlen, hholds⟩ := ih hrows
    obtain ⟨out, hout, houtLen, houtHolds⟩ := distribute_spec h hlen k d
    refine ⟨out, ?_, houtLen, fun s k' d' => ?_⟩
    · rw [foldlM_append, hstrata]
      change (distribute (sccIndices comps) (stratumOf layers) strata (k, d) >>=
        fun r => pure r) = _
      rw [hout]
      rfl
    · rw [houtHolds, hholds, mem_append, mem_singleton, Prod.mk.injEq]
      constructor
      · rintro (⟨rfl, hs, rfl⟩ | ⟨-, hmem, hs⟩)
        · exact ⟨.inr ⟨rfl, rfl⟩, hs⟩
        · exact ⟨.inl hmem, hs⟩
      · rintro ⟨hmem | ⟨rfl, rfl⟩, hs⟩
        · refine .inr ⟨fun ⟨hk, _⟩ => ?_, hmem, hs⟩
          exact hfresh k' (mem_map.mpr ⟨(k', d'), hmem, rfl⟩) k (.head _) hk.symm
        · exact .inl ⟨rfl, hs, rfl⟩

end

/-! ## The stratified program -/

/-- **A stratification** of a program, in execution order: the reachable definitions once each, the
entry last, and a definition no earlier than what it depends on, later than what it needs
complete. -/
structure IsStratification (p : NormalFormProgram) (strata : List NormalFormStratum) : Prop where
  placed : ∀ k d, p.Reachable k → p.lookup k = some d → ∃! i, Holds strata i k d
  reachable : ∀ i k d, Holds strata i k d → p.Reachable k ∧ p.lookup k = some d
  entry : Holds strata (strata.length - 1) p.entryName p.entry
  order : ∀ k v i j dk dv, p.DependsOn k v → Holds strata i k dk → Holds strata j v dv →
    j ≤ i ∧ (p.PoisonedOn k v → j < i)

variable {d : NormalFormRulesOrFixed}

lemma holds_reverse {i : ℕ} :
    Holds strata.reverse i k d ↔ i < strata.length ∧ Holds strata (strata.length - 1 - i) k d := by
  by_cases hi : i < strata.length
  · rw [Holds, getElem?_reverse hi, Holds, and_iff_right hi]
  · refine iff_of_false ?_ fun h => hi h.1
    rintro ⟨stratum, hstratum, -⟩
    exact hi (length_reverse ▸ (List.getElem_of_getElem? hstratum).1)

lemma lt_of_holds {i : ℕ} (h : Holds strata i k d) : i < strata.length := by
  obtain ⟨stratum, hstratum, -⟩ := h
  exact (List.getElem_of_getElem? hstratum).1

lemma IsLayering.isStratification {layers : List (List ℕ)} (h : IsLayering p comps layers)
    (hholds : ∀ s k d, Holds strata s k d ↔ (k, d) ∈ p.iterAll ∧ InLayer comps layers k s) :
    p.IsStratification strata.reverse := by
  simp only [mem_iterAll] at hholds
  refine ⟨fun k d hreach hd => ?_, fun i k d hi => ?_, ?_, fun k v i j dk dv hdep hk hv => ?_⟩
  · obtain ⟨s, hs⟩ := h.exists_iff.mpr ⟨hreach, d, hd⟩
    have hold : Holds strata s k d := (hholds s k d).mpr ⟨hd, hs⟩
    have hlt := lt_of_holds hold
    refine ⟨strata.length - 1 - s, ?_, fun i hi => ?_⟩
    · refine holds_reverse.mpr ⟨by omega, ?_⟩
      rwa [show strata.length - 1 - (strata.length - 1 - s) = s by omega]
    · obtain ⟨hi, hin⟩ := holds_reverse.mp hi
      have := h.unique hs ((hholds _ k d).mp hin).2
      omega
  · obtain ⟨hd, hs⟩ := (hholds _ k d).mp (holds_reverse.mp hi).2
    exact ⟨(h.exists_iff.mp ⟨_, hs⟩).1, hd⟩
  · have hold : Holds strata 0 p.entryName p.entry :=
      (hholds 0 _ _).mpr ⟨by rw [lookup, if_pos rfl], h.entry⟩
    have hlt := lt_of_holds hold
    rw [length_reverse]
    refine holds_reverse.mpr ⟨by omega, ?_⟩
    rwa [Nat.sub_self]
  · obtain ⟨hi, hk⟩ := holds_reverse.mp hk
    obtain ⟨hj, hv⟩ := holds_reverse.mp hv
    obtain ⟨hle, hlt⟩ := h.order ((hholds _ k dk).mp hk).2 ((hholds _ v dv).mp hv).2 hdep
    exact ⟨by omega, fun hpoison => by have := hlt hpoison; omega⟩

lemma fromReverseExecutionOrder_eq_ok (disabled : Bool) (hentry : Holds strata 0 p.entryName d) :
    ∃ out, fromReverseExecutionOrder strata disabled = .ok out ∧
      out.strata = strata.reverse := by
  obtain ⟨first, hfirst, hd⟩ := hentry
  have hlast : strata.reverse.getLast? = some first := by
    rw [getLast?_reverse, head?_eq_getElem?, hfirst]
  have hholds : NormalFormStratum.holdsEntry first = true := by
    rw [NormalFormStratum.holdsEntry, any_eq_true]
    refine ⟨p.entryName, ?_, ?_⟩
    · rw [TreeMap.mem_keys, mem_iff_isSome_getElem?, hd]
      rfl
    · rw [p.isEntry]
      decide
  rw [fromReverseExecutionOrder]
  split
  · rename_i hnone
    cases hlast.symm.trans hnone
  · rename_i last hsome
    cases hlast.symm.trans hsome
    rw [dif_pos hholds]
    exact ⟨_, rfl, rfl⟩

variable (p)

lemma intoStratifiedProgram_of_poisonedCycle (h : p.PoisonedCycle) :
    ∃ v scc, p.intoStratifiedProgram = .error (.unStratifiable v scc) := by
  obtain ⟨comps, hsccs, hcomps⟩ := stronglyConnectedComponents_spec p.prunedGraph
  rcases hcheck : verifyNoCycle p.pruned comps with e | u
  · obtain ⟨v, scc, rfl⟩ := verifyNoCycle_error hcheck
    refine ⟨v, scc, ?_⟩
    have hstart : p.intoStratifiedProgram =
        ((stronglyConnectedComponents p.prunedGraph).mapError graph >>= fun sccs =>
          verifyNoCycle p.pruned sccs >>= fun _ => _) := rfl
    rw [hstart, hsccs]
    change (verifyNoCycle p.pruned comps >>= fun _ => _) = _
    rw [hcheck]
    rfl
  · exact absurd h ((verifyNoCycle_pruned hcomps).mp hcheck)

lemma intoStratifiedProgram_of_not_poisonedCycle (h : ¬p.PoisonedCycle) :
    ∃ out lifetimes, p.intoStratifiedProgram = .ok (out, lifetimes) ∧
      p.IsStratification out.strata := by
  obtain ⟨comps, hsccs, hcomps⟩ := stronglyConnectedComponents_spec p.prunedGraph
  have hcheck := (verifyNoCycle_pruned hcomps).mpr h
  obtain ⟨reduced, hreduced, hreduces⟩ :=
    makeSccReducedGraph_spec hcomps.unique fun k hk => (hcomps.mem_iff k).mpr (mem_pruned.mp hk)
  have hreach : ∀ k v q, GraphEdge p.pruned k v q → Reaches p.prunedGraph k v := by
    intro k v q hedge
    obtain ⟨hk, hdep, -⟩ := p.graphEdge_pruned.mp hedge
    exact (p.reaches_pruned hk).mpr (.single hdep)
  obtain ⟨layers, hlayers, hlayered⟩ :=
    generalizedKahn_layered hreduces.inRange (hreduces.wellFounded hcomps hreach)
  have hlayering : IsLayering p comps layers := ⟨hcomps, ⟨reduced, hreduces, hlayered⟩, h⟩
  obtain ⟨strata, hstrata, -, hholds⟩ := foldlM_distribute hlayering p.iterAll p.iterAll_nodup
  have hentry : Holds strata 0 p.entryName p.entry := (hholds 0 _ _).mpr
    ⟨p.mem_iterAll.mpr (by rw [lookup, if_pos rfl]), hlayering.entry⟩
  obtain ⟨out, hout, hrev⟩ :=
    fromReverseExecutionOrder_eq_ok p.disableMagicRewrite hentry
  refine ⟨out, storeLifetimes p.pruned (sccIndices comps) (stratumOf layers.reverse), ?_, ?_⟩
  · have hstart : p.intoStratifiedProgram =
        ((stronglyConnectedComponents p.prunedGraph).mapError graph >>= fun sccs =>
          verifyNoCycle p.pruned sccs >>= fun _ =>
          makeSccReducedGraph sccs p.pruned >>= fun r =>
          (generalizedKahn r.2 sccs.length).mapError graph >>= fun layers =>
          p.iterAll.foldlM (distribute r.1 (stratumOf layers)) (replicate layers.length ∅)
            >>= fun strata =>
          (fromReverseExecutionOrder strata
            p.disableMagicRewrite).mapError tier >>= fun stratified =>
          pure (stratified, storeLifetimes p.pruned r.1 (stratumOf layers.reverse))) := rfl
    simp [hstart, hsccs, hcheck, hreduced, hlayers, hstrata, hout, Except.mapError, bind,
      Except.bind, pure, Except.pure]
  · rw [hrev]
    exact hlayering.isStratification hholds

/-- The stratifier succeeds exactly if no poisoned dependency that is reachable from the entry lies
on a cycle, refuses the others by naming a family, and what it returns is a stratification. -/
theorem stratify_sound_complete : ((∃ out, p.intoStratifiedProgram = .ok out) ↔ ¬p.PoisonedCycle) ∧
    (p.PoisonedCycle → ∃ v scc, p.intoStratifiedProgram = .error (.unStratifiable v scc)) ∧
    ∀ out lifetimes, p.intoStratifiedProgram = .ok (out, lifetimes) →
      p.IsStratification out.strata := by
  refine ⟨⟨?_, ?_⟩, p.intoStratifiedProgram_of_poisonedCycle, ?_⟩
  · rintro ⟨out, hout⟩ hcycle
    obtain ⟨v, scc, herror⟩ := p.intoStratifiedProgram_of_poisonedCycle hcycle
    cases hout.symm.trans herror
  · intro h
    obtain ⟨out, lifetimes, hout, -⟩ := p.intoStratifiedProgram_of_not_poisonedCycle h
    exact ⟨_, hout⟩
  · intro out lifetimes hout
    by_cases hcycle : p.PoisonedCycle
    · obtain ⟨v, scc, herror⟩ := p.intoStratifiedProgram_of_poisonedCycle hcycle
      cases hout.symm.trans herror
    · obtain ⟨out', lifetimes', hout', hstrat⟩ :=
        p.intoStratifiedProgram_of_not_poisonedCycle hcycle
      cases hout.symm.trans hout'
      exact hstrat

end NormalFormProgram

end Kyzo
