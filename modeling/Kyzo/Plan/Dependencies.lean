import Kyzo.Plan.Kahn
import Kyzo.Plan.Stratify

/-!
# The dependencies of a program

What it means that a definition depends on another and that the dependency must be complete first,
said of the rules themselves, and that the dependency graph says the same.
-/

namespace Kyzo

open List Std

namespace NormalFormProgram

variable (p : NormalFormProgram)

/-- The definition of a name. -/
def lookup (k : Symbol) : Option NormalFormRulesOrFixed :=
  if k = p.entryName then some p.entry else p.rules[k]?

variable {k : Symbol}

lemma mem_iterAll {d : NormalFormRulesOrFixed} : (k, d) ∈ p.iterAll ↔ p.lookup k = some d := by
  rw [iterAll, lookup, mem_append, TreeMap.mem_toList_iff_getElem?_eq_some,
    mem_singleton, Prod.mk.injEq]
  split_ifs with hk
  · have hnone : p.rules[k]? = none :=
      TreeMap.getElem?_eq_none (hk ▸ p.notMem)
    rw [hnone, Option.some_inj]
    exact ⟨fun h => (h.resolve_left (fun h => nomatch h)).2.symm, fun h => .inr ⟨hk, h.symm⟩⟩
  · exact ⟨fun h => h.resolve_right fun h => hk h.1, .inl⟩

lemma iterAll_nodup : (p.iterAll.map Prod.fst).Nodup := by
  rw [iterAll, map_append, TreeMap.map_fst_toList_eq_keys]
  refine (keys_nodup p.rules).append (nodup_singleton _) fun k hrule hentry => ?_
  obtain rfl := mem_singleton.mp hentry
  exact p.notMem (TreeMap.mem_keys.mp hrule)

/-! ## What a rule reads -/

/-- A fixed rule. -/
def IsFixed (k : Symbol) : Prop := ∃ fixed, p.lookup k = some (.fixed fixed)

/-- A head that aggregates. -/
def Aggregates (k : Symbol) : Prop :=
  ∃ rules, p.lookup k = some (.rules rules) ∧ (aggregationCharacter rules).1 = true

/-- A head that aggregates with meets alone. -/
def IsMeet (k : Symbol) : Prop :=
  ∃ rules, p.lookup k = some (.rules rules) ∧ (aggregationCharacter rules).2 = true

section

variable (v : Symbol) (k)

/-- A rule of `k` reads `v`, perhaps negated. -/
def Reads (negated : Bool) : Prop :=
  ∃ rules, p.lookup k = some (.rules rules) ∧
    ∃ rule ∈ rules, ∃ atom ∈ rule.body, (v, negated) ∈ atom.containedRules

/-- The fixed rule `k` takes `v` as input. -/
def TakesInput : Prop :=
  ∃ fixed bindings, p.lookup k = some (.fixed fixed) ∧ .inMem v bindings ∈ fixed.ruleArgs

/-- A read that needs its relation complete: a negated read, the read of a fixed rule, any read by a
head that aggregates except that of a meet head by itself, and the read of another meet head. -/
def NeedsComplete (negated : Bool) : Prop :=
  negated = true ∨ p.IsFixed v ∨ p.Aggregates k ∧ ¬(p.IsMeet k ∧ k = v) ∨
    ¬p.Aggregates k ∧ p.IsMeet v ∧ v ≠ k

/-- A dependency. -/
def DependsOn : Prop := (∃ negated, p.Reads k v negated) ∨ p.TakesInput k v

/-- A poisoned dependency. -/
def PoisonedOn : Prop :=
  (∃ negated, p.Reads k v negated ∧ p.NeedsComplete k v negated) ∨ p.TakesInput k v

end

/-! ## The graph says the same -/

lemma mem_meetRules : k ∈ p.meetRules ↔ p.IsMeet k := by
  rw [meetRules, TreeSet.mem_ofList]
  simp only [contains_iff_mem, mem_filterMap, Prod.exists, mem_iterAll]
  constructor
  · rintro ⟨k', d, hlookup, hk⟩
    rcases d with rules | fixed
    · simp only [Option.ite_none_right_eq_some, Option.some.injEq] at hk
      obtain ⟨hmeet, rfl⟩ := hk
      exact ⟨rules, hlookup, hmeet⟩
    · cases hk
  · rintro ⟨rules, hlookup, hmeet⟩
    exact ⟨k, _, hlookup, by simp [hmeet]⟩

lemma mem_fixedRules : k ∈ p.fixedRules ↔ p.IsFixed k := by
  rw [fixedRules, TreeSet.mem_ofList]
  simp only [contains_iff_mem, mem_filterMap, Prod.exists, mem_iterAll]
  constructor
  · rintro ⟨k', d, hlookup, hk⟩
    rcases d with rules | fixed
    · cases hk
    · cases hk
      exact ⟨fixed, hlookup⟩
  · rintro ⟨fixed, hlookup⟩
    exact ⟨k, _, hlookup, rfl⟩

section

variable (k) (hasAggr isMeet : Bool)
include hasAggr

/-- The flag of one read, which is the same whether it comes first or not. -/
def readFlag (read : Symbol × Bool) : Bool :=
  if hasAggr then
    if isMeet ∧ k = read.1 then decide (read.1 ∈ p.fixedRules) || read.2 else true
  else decide (read.1 ∈ p.fixedRules) || decide (read.1 ∈ p.meetRules ∧ read.1 ≠ k) || read.2

lemma addRead_eq (ret : TreeMap Symbol Bool) (read : Symbol × Bool) :
    p.addRead k hasAggr isMeet ret read =
      ret.insert read.1 ((ret[read.1]?).getD false || p.readFlag k hasAggr isMeet read) := by
  obtain ⟨v, negated⟩ := read
  rw [addRead, readFlag]
  rcases ret[v]? with _ | old
  · rfl
  · split_ifs with haggr hself
    · simp [hself.2]
    · rfl
    · rfl

lemma foldl_addRead (reads : List (Symbol × Bool)) (v : Symbol) :
    (reads.foldl (p.addRead k hasAggr isMeet) ∅)[v]? =
      if v ∈ reads.map Prod.fst then
        some (reads.any fun read => read.1 = v && p.readFlag k hasAggr isMeet read)
      else none := by
  induction reads using reverseRecOn with
  | nil => simp
  | append_singleton reads read ih =>
    rw [foldl_append, foldl_cons, foldl_nil, addRead_eq, TreeMap.getElem?_insert]
    by_cases hv : read.1 = v
    · subst hv
      rw [ih]
      by_cases hmem : read.1 ∈ reads.map Prod.fst
      · rw [if_pos hmem]
        simp
      · have hnone : (reads.any fun r => r.1 = read.1 && p.readFlag k hasAggr isMeet r) =
            false := by
          rw [any_eq_false]
          intro r hr
          have hne : r.1 ≠ read.1 := fun h => hmem (h ▸ mem_map_of_mem hr)
          simp [hne]
        rw [if_neg hmem]
        simp [hnone]
    · rw [ih]
      simp [hv, Ne.symm hv]

end

variable {v : Symbol} {rules : List NormalFormInlineRule}

lemma readFlag_iff {negated : Bool} (hlookup : p.lookup k = some (.rules rules)) :
    p.readFlag k (aggregationCharacter rules).1 (aggregationCharacter rules).2 (v, negated) = true ↔
      p.NeedsComplete k v negated := by
  have hrules : ∀ rules', p.lookup k = some (.rules rules') ↔ rules' = rules := by
    intro rules'
    rw [hlookup, Option.some_inj, NormalFormRulesOrFixed.rules.injEq, eq_comm]
  have haggr : p.Aggregates k ↔ (aggregationCharacter rules).1 = true := by
    simp [Aggregates, hrules]
  have hmeet : p.IsMeet k ↔ (aggregationCharacter rules).2 = true := by
    simp [IsMeet, hrules]
  rw [readFlag, NeedsComplete, haggr, hmeet, ← p.mem_fixedRules, ← p.mem_meetRules]
  split_ifs with h₁ h₂
  · simp [h₁, h₂, or_comm]
  · simp [h₁, h₂]
  · simp [h₁, or_comm]

variable {b : Bool}

lemma dependencies_rules (hlookup : p.lookup k = some (.rules rules)) :
    (p.dependencies k (.rules rules))[v]? = some b ↔
      (∃ negated, p.Reads k v negated) ∧
        (b = true ↔ ∃ negated, p.Reads k v negated ∧ p.NeedsComplete k v negated) := by
  have hreads : ∀ negated, p.Reads k v negated ↔
      (v, negated) ∈ rules.flatMap fun rule => rule.body.flatMap (·.containedRules) := by
    simp [Reads, hlookup, Option.some.injEq, NormalFormRulesOrFixed.rules.injEq,
      exists_eq_left', mem_flatMap]
  rw [dependencies, foldl_addRead]
  generalize hL : (rules.flatMap fun rule => rule.body.flatMap (·.containedRules)) = reads at *
  have hany : (reads.any fun read => read.1 = v &&
      p.readFlag k (aggregationCharacter rules).1 (aggregationCharacter rules).2 read) = true ↔
        ∃ negated, p.Reads k v negated ∧ p.NeedsComplete k v negated := by
    rw [any_eq_true]
    constructor
    · rintro ⟨⟨w, negated⟩, hmem, hflag⟩
      rw [Bool.and_eq_true, decide_eq_true_iff] at hflag
      obtain ⟨rfl, hflag⟩ := hflag
      exact ⟨negated, (hreads negated).mpr hmem, (p.readFlag_iff hlookup).mp hflag⟩
    · rintro ⟨negated, hmem, hneeds⟩
      refine ⟨(v, negated), (hreads negated).mp hmem, ?_⟩
      rw [Bool.and_eq_true, decide_eq_true_iff]
      exact ⟨rfl, (p.readFlag_iff hlookup).mpr hneeds⟩
  have hmem : v ∈ reads.map Prod.fst ↔ ∃ negated, p.Reads k v negated := by
    rw [mem_map]
    constructor
    · rintro ⟨⟨w, negated⟩, hmem, rfl⟩
      exact ⟨negated, (hreads negated).mpr hmem⟩
    · rintro ⟨negated, hmem⟩
      exact ⟨(v, negated), (hreads negated).mp hmem, rfl⟩
  split_ifs with hv
  · rw [Option.some_inj, ← hany, and_iff_right (hmem.mp hv), ← Bool.eq_iff_iff, eq_comm]
  · exact ⟨(fun h => nomatch h), fun h => absurd (hmem.mpr h.1) hv⟩

lemma foldl_insert_inputs {args : List FixedRuleArg} :
    (args.foldl (fun (ret : TreeMap Symbol Bool) rel =>
      match rel with
      | .inMem name _ => ret.insert name true
      | .stored .. | .namedStored .. => ret) ∅)[v]? = some b ↔
      b = true ∧ ∃ bindings, .inMem v bindings ∈ args := by
  induction args using reverseRecOn with
  | nil => simp
  | append_singleton args arg ih =>
    rw [foldl_append, foldl_cons, foldl_nil]
    rcases arg with ⟨name, bindings⟩ | ⟨name, bindings, asOf⟩ | ⟨name, bindings, asOf⟩
    · simp only [TreeMap.getElem?_insert, LawfulEqOrd.compare_eq_iff_eq]
      split_ifs with hv
      · subst hv
        rw [Option.some_inj, eq_comm]
        exact (and_iff_left ⟨bindings, by simp⟩).symm
      · rw [ih]
        simp [Ne.symm hv]
    · simpa using ih
    · simpa using ih

lemma toGraph_getElem? {tos : TreeMap Symbol Bool} :
    p.toGraph[k]? = some tos ↔ ∃ d, p.lookup k = some d ∧ p.dependencies k d = tos := by
  have hnodup : ((p.iterAll.map fun row => (row.1, p.dependencies row.1 row.2)).map
      Prod.fst).Nodup := by
    rw [map_map]
    exact p.iterAll_nodup
  rw [toGraph, collect_eq_some_iff fun _ _ _ => eq_of_mem_of_nodup hnodup, mem_map]
  constructor
  · rintro ⟨⟨k, d⟩, hmem, heq⟩
    cases heq
    exact ⟨d, p.mem_iterAll.mp hmem, rfl⟩
  · rintro ⟨d, hlookup, rfl⟩
    exact ⟨(k, d), p.mem_iterAll.mpr hlookup, rfl⟩

/-- **The dependency graph.**  Its edges are the dependencies, flagged where they are poisoned. -/
theorem labelledEdge_toGraph :
    LabelledEdge p.toGraph k v b ↔ p.DependsOn k v ∧ (b = true ↔ p.PoisonedOn k v) := by
  have hedge : LabelledEdge p.toGraph k v b ↔
      ∃ d, p.lookup k = some d ∧ (p.dependencies k d)[v]? = some b := by
    simp only [LabelledEdge, toGraph_getElem?]
    constructor
    · rintro ⟨_, ⟨d, hd, rfl⟩, hv⟩
      exact ⟨d, hd, hv⟩
    · rintro ⟨d, hd, hv⟩
      exact ⟨_, ⟨d, hd, rfl⟩, hv⟩
  rw [hedge, DependsOn, PoisonedOn]
  rcases hlookup : p.lookup k with _ | rules | fixed
  · simp [Reads, TakesInput, hlookup]
  · have hnone : ¬p.TakesInput k v := by simp [TakesInput, hlookup]
    simp only [Option.some.injEq, exists_eq_left', hnone, or_false]
    exact p.dependencies_rules hlookup
  · have hnone : ∀ negated, ¬p.Reads k v negated := by simp [Reads, hlookup]
    have hinput : p.TakesInput k v ↔ ∃ bindings, .inMem v bindings ∈ fixed.ruleArgs := by
      simp [TakesInput, hlookup]
    have hdeps : (p.dependencies k (.fixed fixed))[v]? = some b ↔
        b = true ∧ ∃ bindings, .inMem v bindings ∈ fixed.ruleArgs := foldl_insert_inputs
    simp only [Option.some.injEq, exists_eq_left', hnone, false_and, exists_false, false_or,
      hdeps, hinput]
    constructor
    · rintro ⟨hb, hmem⟩
      exact ⟨hmem, fun _ => hmem, fun _ => hb⟩
    · rintro ⟨hmem, hb⟩
      exact ⟨hb.mpr hmem, hmem⟩

end NormalFormProgram

end Kyzo
