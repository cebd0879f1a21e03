import Kyzo.Exec.EvalEpoch

/-!
# Semi-naive evaluation is the least fixpoint

A stratum of plain rules whose derivations take one row from each occurrence: whatever the epochs
do, the stores end with the relations that the rules define, and a budget that allows one epoch for
every row does not refuse.
-/

namespace Kyzo

open List hiding Disjoint

variable {β : Type}

/-! ## Plain strata -/

variable {n : MagicSymbol}

namespace EvalStratum

variable (stratum : EvalStratum β)

/-- The names of a stratum. -/
def names : List MagicSymbol := stratum.defs.map Prod.fst

/-- The bodies of a name. -/
def bodiesOf (n : MagicSymbol) : List (RuleBody β) :=
  match stratum.defs.lookup n with
  | some (.rules r) => r.bodies
  | some (.fixed ..) | none => []

variable {stratum}

lemma bodiesOf_eq {r : EvalRuleSet β} (h : (n, .rules r) ∈ stratum.defs) :
    stratum.bodiesOf n = r.bodies := by
  have hlookup : ∀ defs : List (MagicSymbol × EvalDefinition β), (defs.map Prod.fst).Nodup →
      ∀ d, (n, d) ∈ defs → defs.lookup n = some d := by
    intro defs hnodup d hd
    induction defs with
    | nil => exact absurd hd not_mem_nil
    | cons e defs ih =>
      rw [map_cons, nodup_cons] at hnodup
      rw [lookup_cons]
      rcases mem_cons.mp hd with rfl | hd
      · rw [beq_self_eq_true]
      · have hne : (n == e.1) = false := beq_eq_false_iff_ne.mpr fun h =>
          hnodup.1 (h ▸ mem_map.mpr ⟨_, hd, rfl⟩)
        rw [hne]
        exact ih hnodup.2 hd
  rw [bodiesOf, hlookup stratum.defs stratum.nodup _ h]

lemma bodiesOf_of_notMem (h : n ∉ stratum.names) : stratum.bodiesOf n = [] := by
  have hlookup : stratum.defs.lookup n = none := by
    rw [lookup_eq_none_iff]
    intro e he
    exact bne_iff_ne.mpr fun heq => h (heq ▸ mem_map.mpr ⟨e, he, rfl⟩)
  rw [bodiesOf, hlookup]

end EvalStratum

/-- **A plain stratum** over stores: no head aggregates, its own stores are fresh, the bodies keep
their contract and are monotone, and what they read is stored. -/
structure IsPlain (stratum : EvalStratum β) (stores : Stores) (meaning : MagicSymbol → Meanings β) :
    Prop where
  plain : ∀ e ∈ stratum.defs, ∃ r, e.2 = .rules r ∧ r.kind = .none
  fresh : ∀ n ∈ stratum.names, ∃ arity, stores n = some (.newNormal arity)
  bodies : ∀ n, stratum.bodiesOf n = (meaning n).map Prod.fst
  honours : ∀ n, ∀ p ∈ meaning n, Honours stratum.names stores p.1 p.2
  monotone : ∀ n, ∀ p ∈ meaning n, p.2.Monotone
  stored : ∀ n, ∀ p ∈ meaning n, ∀ e ∈ p.1.containedRules, ∃ s, stores e.2 = some s
  /-- A store from below that still has a delta holds its rows. -/
  below : ∀ n, n ∉ stratum.names → ∀ s, stores n = some s → s.hasDelta = true → s.delta ⊆ s.total

section

variable {stratum : EvalStratum β} {stores : Stores} {meaning : MagicSymbol → Meanings β}

namespace IsPlain

/-- The rules of the stratum, over the relations below it. -/
def naive (h : IsPlain stratum stores meaning) :
    SemiNaive.Rules MagicSymbol AtomOccurrence Tuple where
  given n := if n ∈ stratum.names then ∅ else relations stores n
  bodies n := (meaning n).map Prod.snd
  monotone n b hb := by
    obtain ⟨p, hp, rfl⟩ := mem_map.mp hb
    exact h.monotone n p hp

variable (h : IsPlain stratum stores meaning)

/-- The stores of a plain stratum start with the given relations. -/
theorem given_eq : h.naive.given = relations stores := by
  funext n
  refine ite_eq_right_iff.mpr fun hn => (Set.eq_empty_of_forall_notMem fun t ht => ?_).symm
  obtain ⟨arity, hfresh⟩ := h.fresh n hn
  rw [relations_of_some hfresh, (EpochStore.HasMerged.newNormal arity).mem_total] at ht
  obtain ⟨o, ho, -⟩ := ht
  exact absurd ho not_mem_nil

lemma totalRows_eq (n : MagicSymbol) (now : Stores) : totalRows (meaning n) now =
    {t | ∃ b ∈ h.naive.bodies n, t ∈ b.derive (b.inputs (relations now))} := by
  ext t
  simp only [totalRows, naive, mem_map]
  exact ⟨fun ⟨p, hp, ht⟩ => ⟨_, ⟨p, hp, rfl⟩, ht⟩, fun ⟨_, ⟨p, hp, rfl⟩, ht⟩ => ⟨p, hp, ht⟩⟩

include h in
lemma meaning_eq_nil (hn : n ∉ stratum.names) : meaning n = [] := by
  have hnil := (h.bodies n).symm.trans (EvalStratum.bodiesOf_of_notMem hn)
  rwa [map_eq_nil_iff] at hnil

end IsPlain

/-! ## Runs -/

/-- What an evaluation carries between epochs, after merging the out-stores `outs`. -/
structure Ready (h : IsPlain stratum stores meaning) (spent : ℕ)
    (outs : MagicSymbol → List RegularTempStore) (s : EvalState) : Prop where
  same : SameBelow stratum.names stores s.stores
  own : ∀ n ∈ stratum.names, ∃ st, s.stores n = some st ∧ st.HasMerged (outs n) ∧
    (((outs n).map RegularTempStore.bytes).sum ≤ arenaMax →
      st.held ≤ ((outs n).map RegularTempStore.bytes).sum)
  apart : ∀ n ∈ stratum.names, (outs n).Pairwise fun o o' => Disjoint o.rows o'.rows
  spent_eq : s.spentDerived =
    spent + (stratum.names.map fun n => ((outs n).map RegularTempStore.len).sum).sum
  limiter : s.limiter.enabled = false
  used : s.usedLimiter = false

/-- Rows of a name that do not fit its arena. -/
def Overflows (h : IsPlain stratum stores meaning) (n : MagicSymbol) : Prop :=
  ∃ ts : List Tuple, ts.Nodup ∧ (∀ t ∈ ts, t ∈ h.naive.least n) ∧
    arenaMax < (ts.map fun t => t.bare.length).sum

variable {h : IsPlain stratum stores meaning} {spent : ℕ}
  {outs : MagicSymbol → List RegularTempStore} {s : EvalState}

namespace Ready

variable (hs : Ready h spent outs s)
include hs

lemma mem_relations (hn : n ∈ stratum.names) {t : Tuple} :
    t ∈ relations s.stores n ↔ ∃ o ∈ outs n, t ∈ o.rows := by
  obtain ⟨st, hst, hmerged, -⟩ := hs.own n hn
  rw [relations_of_some hst, hmerged.mem_total]

lemma relations_below (hn : n ∉ stratum.names) : relations s.stores n = relations stores n := by
  rw [relations, relations, hs.same n hn]

variable {new : RegularTempStore}

lemma apart_concat (hn : n ∈ stratum.names) (hnew : Disjoint new.rows (relations s.stores n)) :
    (outs n ++ [new]).Pairwise fun o o' => Disjoint o.rows o'.rows := by
  refine pairwise_append.mpr ⟨hs.apart n hn, pairwise_singleton _ _, fun o ho o' ho' => ?_⟩
  rw [mem_singleton.mp ho', Set.disjoint_left]
  intro t ht ht'
  exact Set.disjoint_left.mp hnew ht' ((hs.mem_relations hn).mpr ⟨o, ho, ht⟩)

lemma overflows (hn : n ∈ stratum.names) (hsound : relations s.stores n ⊆ h.naive.least n)
    (hnew : Disjoint new.rows (relations s.stores n)) (hrows : new.rows ⊆ h.naive.least n)
    {st : EpochStore} (hst : s.stores n = some st) (hover : arenaMax < st.held + new.bytes) :
    Overflows h n := by
  obtain ⟨ts, hnodup, hmem, -, hbytes⟩ :=
    RegularTempStore.exists_tuples_all (hs.apart_concat hn hnew)
  refine ⟨ts, hnodup, fun t ht => ?_, ?_⟩
  · obtain ⟨o, ho, hto⟩ := (hmem t).mp ht
    rcases mem_append.mp ho with ho | ho
    · exact hsound ((hs.mem_relations hn).mpr ⟨o, ho, hto⟩)
    · exact hrows (mem_singleton.mp ho ▸ hto)
  · obtain ⟨st', hst', -, hheld⟩ := hs.own n hn
    cases hst.symm.trans hst'
    rw [← hbytes, map_append, sum_append, map_singleton, sum_singleton]
    by_cases hfit : ((outs n).map RegularTempStore.bytes).sum ≤ arenaMax
    · omega
    · omega

variable {new : MagicSymbol → RegularTempStore}

/-- **One more merge.** -/
theorem merged {s' : EvalState}
    (hnew : ∀ n ∈ stratum.names, Disjoint (new n).rows (relations s.stores n))
    (hsame : SameBelow stratum.names s.stores s'.stores)
    (hmore : ∀ n ∈ stratum.names, MergedMore (outs n) (new n) (s.stores n) (s'.stores n))
    (hspent : s'.spentDerived = s.spentDerived + (stratum.names.map fun n => (new n).len).sum)
    (hlimiter : s'.limiter = s.limiter) (hused : s'.usedLimiter = s.usedLimiter) :
    Ready h spent (fun n => outs n ++ [new n]) s' where
  same n hn := (hsame n hn).trans (hs.same n hn)
  own n hn := by
    obtain ⟨st, st', hst, hst', hmerged, hheld'⟩ := (hmore n hn).merged
    obtain ⟨st₀, hst₀, -, hheld⟩ := hs.own n hn
    cases hst.symm.trans hst₀
    refine ⟨st', hst', hmerged, fun hfit => ?_⟩
    rw [map_append, sum_append, map_singleton, sum_singleton] at hfit ⊢
    omega
  apart n hn := hs.apart_concat hn (hnew n hn)
  spent_eq := by
    have hsum : (stratum.names.map fun n =>
        ((outs n ++ [new n]).map RegularTempStore.len).sum).sum =
        (stratum.names.map fun n => ((outs n).map RegularTempStore.len).sum).sum +
          (stratum.names.map fun n => (new n).len).sum := by
      rw [← sum_map_add]
      congr 1
      refine map_congr_left fun n _ => ?_
      rw [map_append, sum_append, map_singleton, sum_singleton]
    rw [hspent, hs.spent_eq]
    omega
  limiter := hlimiter ▸ hs.limiter
  used := hused.trans hs.used

variable {s' : EvalState} (hs' : Ready h spent (fun n => outs n ++ [new n]) s')
  (hn : n ∈ stratum.names)
include hs' hn

lemma relations_merged : relations s'.stores n = relations s.stores n ∪ (new n).rows := by
  ext t
  rw [Set.mem_union, hs'.mem_relations hn, hs.mem_relations hn]
  simp [or_and_right, exists_or]

lemma deltas_merged : deltas s'.stores n = relations s'.stores n \ relations s.stores n := by
  obtain ⟨st, hst, hmerged, -⟩ := hs.own n hn
  obtain ⟨st', hst', hmerged', -⟩ := hs'.own n hn
  ext t
  rw [deltas_of_some hst', hmerged'.mem_delta_concat hmerged, hs.relations_merged hs' hn,
    relations_of_some hst]
  constructor
  · exact fun h => ⟨.inr h.1, h.2⟩
  · exact fun h => ⟨h.1.resolve_left h.2, h.2⟩

end Ready

/-- **Invariant** of an evaluation after an epoch, with the relations `old` before it. -/
structure Running (h : IsPlain stratum stores meaning) (spent : ℕ) (old : MagicSymbol → Set Tuple)
    (outs : MagicSymbol → List RegularTempStore) (s : EvalState) : Prop where
  ready : Ready h spent outs s
  reached : h.naive.Reached old (relations s.stores)
  oldBelow : ∀ n, n ∉ stratum.names → relations s.stores n ⊆ old n
  delta : ∀ n ∈ stratum.names, deltas s.stores n = relations s.stores n \ old n

/-- How an epoch of a plain stratum ends. -/
inductive StepOutcome (h : IsPlain stratum stores meaning) (budget : Budget) (spent : ℕ)
    (s : EvalState) (result : EvalM β (EvalState × Bool)) : Prop where
  | limit (hlimit : IsLimit result) (hceiling : budget.derivedTupleCeiling ≠ none)
  | overflow (n : MagicSymbol) (hn : n ∈ stratum.names) (hover : Overflows h n)
  | running (outs : MagicSymbol → List RegularTempStore) (s' : EvalState) (changed : Bool)
    (hresult : result = .ok (s', changed))
    (hrunning : Running h spent (relations s.stores) outs s')
    (hmore : changed = true → s.spentDerived < s'.spentDerived)
    (hdone : changed = false → ∀ n, relations s'.stores n ⊆ relations s.stores n)

variable {budget : Budget}

/-- An epoch that derives `rows`, none of them held, all of them in the least relations. -/
theorem stepOutcome_of_epoch (hs : Ready h spent outs s) (rows : MagicSymbol → Set Tuple)
    (hnone : ∀ n, n ∉ stratum.names → rows n = ∅)
    (hnew : ∀ n ∈ stratum.names, Disjoint (rows n) (relations s.stores n))
    (hreach : h.naive.Reached (relations s.stores) fun n => relations s.stores n ∪ rows n)
    {result : EvalM β (EvalState × Bool)}
    (hresult : EpochOutcome budget stratum.names rows outs s result) :
    StepOutcome h budget spent s result := by
  rcases hresult with ⟨hlimit, hceiling⟩ | ⟨new, e, n, st, -, hnewRows, hn, hst, hover⟩ |
    ⟨new, s', changed, hok, hnewRows, hsame, hmore, hspent, hchanged, hlimiter, hused⟩
  · exact .limit hlimit hceiling
  · have hrow := hnewRows n hn
    have hsound := Set.union_subset_iff.mp (hreach.sound n)
    exact .overflow n hn (hs.overflows hn hsound.1 (hrow ▸ hnew n hn) (hrow ▸ hsound.2) hst hover)
  · have hs' := hs.merged (fun n hn => (hnewRows n hn) ▸ hnew n hn) hsame hmore hspent hlimiter
      hused
    have hbelow : ∀ n, n ∉ stratum.names → relations s'.stores n = relations s.stores n :=
      fun n hn => (hs'.relations_below hn).trans (hs.relations_below hn).symm
    have hnow : relations s'.stores = fun n => relations s.stores n ∪ rows n := by
      funext n
      by_cases hn : n ∈ stratum.names
      · exact hnewRows n hn ▸ hs.relations_merged hs' hn
      · rw [hnone n hn, Set.union_empty, hbelow n hn]
    refine .running _ s' changed hok ⟨hs', hnow ▸ hreach, fun n hn => (hbelow n hn).subset,
      fun n hn => hs.deltas_merged hs' hn⟩ ?_ ?_
    · intro htrue
      obtain ⟨n, hn, t, ht⟩ := hchanged.mp htrue
      have hlen : 0 < (new n).len := by
        obtain ⟨ts, -, hkeys, hmem⟩ := (new n).exists_tuples
        have hcount := congrArg length hkeys
        rw [length_map, length_map] at hcount
        rw [(new n).len_eq, hcount]
        exact length_pos_of_mem ((hmem t).mpr (hnewRows n hn ▸ ht))
      have hle : (new n).len ≤ (stratum.names.map fun n => (new n).len).sum :=
        single_le_sum (fun _ _ => Nat.zero_le _) _ (mem_map.mpr ⟨n, hn, rfl⟩)
      omega
    · intro hfalse n
      rw [hnow]
      refine Set.union_subset le_rfl fun t ht => ?_
      by_cases hn : n ∈ stratum.names
      · exact absurd (hchanged.mpr ⟨n, hn, t, ht⟩) (by rw [hfalse]; decide)
      · rw [hnone n hn] at ht
        exact absurd ht (Set.notMem_empty t)

variable (ops : NormalAggr) {limiter : QueryLimiter}

/-- **The first epoch.** -/
theorem epochStep_first (h : IsPlain stratum stores meaning) (budget : Budget)
    (hlimit : limiter.enabled = false) (spent : ℕ) :
    StepOutcome h budget spent ⟨stores, limiter, false, spent⟩
      (epochStep ops budget stratum 0 ⟨stores, limiter, false, spent⟩) := by
  have hs : Ready h spent (fun _ => []) ⟨stores, limiter, false, spent⟩ := by
    refine ⟨fun _ _ => rfl, fun n hn => ?_, fun _ _ => .nil, by simp, hlimit, rfl⟩
    obtain ⟨arity, hfresh⟩ := h.fresh n hn
    refine ⟨_, hfresh, .newNormal arity, fun _ => ?_⟩
    rfl
  have hempty : ∀ n ∈ stratum.names, relations stores n = ∅ := fun n hn =>
    h.given_eq ▸ if_pos hn
  refine stepOutcome_of_epoch hs (fun n => totalRows (meaning n) stores) (fun n hn => ?_)
    (fun n hn => ?_) ?_ ?_
  · rw [h.meaning_eq_nil hn]
    simp [totalRows]
  · rw [show relations (EvalState.mk stores limiter false spent).stores n = ∅ from hempty n hn]
    exact disjoint_bot_right
  · simp only [h.totalRows_eq, ← h.given_eq]
    exact .first
  · refine epochStep_plain ops budget stratum 0 hlimit (fun e he => ?_) fun n hn => ?_
    · obtain ⟨n, d⟩ := e
      obtain ⟨r, rfl, hkind⟩ := h.plain _ he
      exact execution_first (h.honours n) hs.same ops hkind
        ((EvalStratum.bodiesOf_eq he).symm.trans (h.bodies n)) hlimit _ _ _
    · obtain ⟨st, hst, hmerged, -⟩ := hs.own n hn
      refine ⟨st, hst, hmerged, ?_⟩
      rw [← relations_of_some hst]
      exact (hempty n hn) ▸ disjoint_bot_right

variable {old : MagicSymbol → Set Tuple}

lemma Running.deltas_subset (hs : Running h spent old outs s) {st : EpochStore}
    (hst : s.stores n = some st) (hdelta : st.hasDelta = true) :
    deltas s.stores n ⊆ relations s.stores n := by
  by_cases hn : n ∈ stratum.names
  · rw [hs.delta n hn]
    exact Set.sdiff_subset
  · rw [deltas_of_some hst, relations_of_some hst]
    exact h.below n hn st (hs.ready.same n hn ▸ hst) hdelta

/-- **A later epoch.** -/
theorem epochStep_later (h : IsPlain stratum stores meaning)
    (hrow : ∀ n, ∀ p ∈ meaning n, p.2.OneRowEach) (budget : Budget) (epoch : ℕ)
    (hs : Running h spent old outs s) :
    StepOutcome h budget spent s (epochStep ops budget stratum (epoch + 1) s) := by
  have hstored : ∀ n, ∀ p ∈ meaning n, ∀ e ∈ p.1.containedRules,
      ∃ st, s.stores e.2 = some st := by
    intro n p hp e he
    by_cases hn : e.2 ∈ stratum.names
    · obtain ⟨st, hst, -⟩ := hs.ready.own _ hn
      exact ⟨st, hst⟩
    · rw [hs.ready.same _ hn]
      exact h.stored n p hp e he
  have hderived : ∀ n t, t ∈ deltaRows (meaning n) s.stores →
      ∃ b ∈ h.naive.bodies n, t ∈ b.derive (b.inputs (relations s.stores)) := by
    rintro n t ⟨p, hp, e, he, ⟨st, hst, hdelta⟩, ht⟩
    refine ⟨p.2, mem_map.mpr ⟨p, hp, rfl⟩, ?_⟩
    refine SemiNaive.Body.derive_update_subset (h.monotone n p hp) (fun u hu => ?_) ht
    refine ⟨e.2, ?_, hs.deltas_subset hst hdelta hu⟩
    rw [(h.honours n p hp).occurrences]
    exact he
  refine stepOutcome_of_epoch hs.ready
    (fun n => deltaRows (meaning n) s.stores \ relations s.stores n) (fun n hn => ?_)
    (fun n _ => Set.disjoint_sdiff_left) (hs.reached.round ?_ (fun n t ht => hderived n t ht.1) ?_)
    ?_
  · rw [h.meaning_eq_nil hn]
    simp [deltaRows]
  · intro n b hb
    obtain ⟨p, hp, rfl⟩ := mem_map.mp hb
    exact hrow n p hp
  · intro n b hb e he hnonempty t ht
    obtain ⟨p, hp, rfl⟩ := mem_map.mp hb
    rw [(h.honours n p hp).occurrences] at he
    -- Only the stratum's own stores grow, and their deltas are what they grew by.
    have hen : e.2 ∈ stratum.names := by
      by_contra hen
      obtain ⟨u, hu, hu'⟩ := hnonempty
      exact hu' (hs.oldBelow _ hen hu)
    obtain ⟨st, hst, hmerged, -⟩ := hs.ready.own _ hen
    have hdelta : st.hasDelta = true := by
      rw [hmerged.hasDelta_iff, ← deltas_of_some hst, hs.delta _ hen]
      exact hnonempty
    rw [← hs.delta _ hen] at ht
    by_cases hheld : t ∈ relations s.stores n
    · exact .inl hheld
    · exact .inr ⟨⟨p, hp, e, he, ⟨st, hst, hdelta⟩, ht⟩, hheld⟩
  · refine epochStep_plain ops budget stratum (epoch + 1) hs.ready.limiter (fun e he => ?_)
      fun n hn => ?_
    · obtain ⟨n, d⟩ := e
      obtain ⟨r, rfl, hkind⟩ := h.plain _ he
      have hn : n ∈ stratum.names := mem_map.mpr ⟨_, he, rfl⟩
      obtain ⟨st, hst, hmerged, -⟩ := hs.ready.own n hn
      rw [relations_of_some hst]
      exact execution_later (h.honours n) hs.ready.same ops hkind
        ((EvalStratum.bodiesOf_eq he).symm.trans (h.bodies n)) hs.ready.limiter epoch _ _
        (hstored n) hst hmerged
    · obtain ⟨st, hst, hmerged, -⟩ := hs.ready.own n hn
      refine ⟨st, hst, hmerged, ?_⟩
      rw [← relations_of_some hst]
      exact Set.disjoint_sdiff_left

/-! ## Whole evaluations -/

/-- How an evaluation of a plain stratum ends: refused by the budget for the reason `why`, out of
arena, or with the least relations. -/
inductive RunOutcome (h : IsPlain stratum stores meaning) (why : Prop)
    (result : EvalM β EvalState) : Prop where
  | limit (hlimit : IsLimit result) (hwhy : why)
  | overflow (n : MagicSymbol) (hn : n ∈ stratum.names) (hover : Overflows h n)
  | done (s : EvalState) (hresult : result = .ok s)
      (hsame : SameBelow stratum.names stores s.stores)
    (hused : s.usedLimiter = false) (hleast : relations s.stores = h.naive.least)

variable {finite : MagicSymbol → Finset Tuple}

lemma Running.spent_le (hs : Running h spent old outs s)
    (hfinite : ∀ n ∈ stratum.names, h.naive.least n ⊆ finite n) :
    s.spentDerived ≤ spent + (stratum.names.map fun n => (finite n).card).sum := by
  rw [hs.ready.spent_eq]
  refine Nat.add_le_add_left (sum_le_sum fun n hn => ?_) _
  obtain ⟨ts, hnodup, hmem, hlen, -⟩ := RegularTempStore.exists_tuples_all (hs.ready.apart n hn)
  classical
  rw [hlen, ← toFinset_card_of_nodup hnodup]
  refine Finset.card_le_card fun t ht => hfinite n hn (hs.reached.sound n ?_)
  exact (hs.ready.mem_relations hn).mpr ((hmem t).mp (mem_toFinset.mp ht))

lemma runOutcome_of_step {why : Prop} (hwhy : budget.derivedTupleCeiling ≠ none → why)
    {left epoch : ℕ} (hstep : StepOutcome h budget spent s (epochStep ops budget stratum epoch s))
    (hrest : ∀ outs s', Running h spent (relations s.stores) outs s' →
      s.spentDerived < s'.spentDerived →
      RunOutcome h why (epochLoop ops budget stratum left (epoch + 1) s')) :
    RunOutcome h why (epochLoop ops budget stratum (left + 1) epoch s) := by
  rw [epochLoop]
  rcases hstep with ⟨⟨e, he⟩, hceiling⟩ | ⟨n, hn, hover⟩ |
    ⟨outs, s', changed, hresult, hrunning, hmore, hdone⟩
  · exact .limit ⟨e, by rw [he]; rfl⟩ (hwhy hceiling)
  · exact .overflow n hn hover
  · rw [hresult]
    rcases changed with _ | _
    · exact .done s' rfl hrunning.ready.same hrunning.ready.used
        (hrunning.reached.eq_least (hdone rfl))
    · exact hrest outs s' hrunning (hmore rfl)

/-- **The later epochs.** -/
theorem epochLoop_plain (h : IsPlain stratum stores meaning)
    (hrow : ∀ n, ∀ p ∈ meaning n, p.2.OneRowEach) (budget : Budget)
    (hfinite : ∀ n ∈ stratum.names, h.naive.least n ⊆ finite n) (left epoch : ℕ)
    (hs : Running h spent old outs s) :
    RunOutcome h (budget.derivedTupleCeiling ≠ none ∨
        s.spentDerived + left ≤ spent + (stratum.names.map fun n => (finite n).card).sum)
      (epochLoop ops budget stratum left (epoch + 1) s) := by
  induction left generalizing epoch old outs s with
  | zero => exact .limit ⟨_, rfl⟩ (.inr (hs.spent_le hfinite))
  | succ left ih =>
    refine runOutcome_of_step ops .inl (epochStep_later ops h hrow budget epoch hs) ?_
    intro outs' s' hs' hmore
    rcases ih (epoch + 1) hs' with
      ⟨hlimit, hwhy⟩ | ⟨n, hn, hover⟩ | ⟨s'', hresult, hsame, hused, hleast⟩
    · exact .limit hlimit (hwhy.imp_right fun hle => by omega)
    · exact .overflow n hn hover
    · exact .done s'' hresult hsame hused hleast

/-- **A whole evaluation.** -/
theorem epochLoop_stratum (h : IsPlain stratum stores meaning)
    (hrow : ∀ n, ∀ p ∈ meaning n, p.2.OneRowEach) (budget : Budget)
    (hlimit : limiter.enabled = false) (spent : ℕ)
    (hfinite : ∀ n ∈ stratum.names, h.naive.least n ⊆ finite n) :
    RunOutcome h (budget.derivedTupleCeiling ≠ none ∨
        budget.epochCeiling ≤ (stratum.names.map fun n => (finite n).card).sum)
      (epochLoop ops budget stratum budget.epochCeiling 0 ⟨stores, limiter, false, spent⟩) := by
  obtain ⟨left, hleft⟩ := Nat.exists_eq_succ_of_ne_zero budget.pos.ne'
  rw [hleft]
  refine runOutcome_of_step ops .inl (epochStep_first ops h budget hlimit spent) ?_
  intro outs s' hs' hmore
  rcases epochLoop_plain ops h hrow budget hfinite left 0 hs' with ⟨hlim, hwhy⟩ | ⟨n, hn, hover⟩ |
    ⟨s'', hresult, hsame, hused, hleast⟩
  · refine .limit hlim (hwhy.imp_right fun hle => ?_)
    have : spent < s'.spentDerived := hmore
    omega
  · exact .overflow n hn hover
  · exact .done s'' hresult hsame hused hleast

end

/-- **Semi-naive evaluation equals naive evaluation.**  Take a plain stratum without a row limit
whose derivations take one row from each occurrence, and suppose that the relations its rules define
are finite and fit the arenas.  Unless the budget refuses, the evaluation ends with exactly these
relations in the stores of the stratum and the other stores as they were; and a budget without a
ceiling on rows that has more epochs than there are rows does not refuse. -/
theorem semi_naive_eq_least (ops : NormalAggr) {stratum : EvalStratum β} {stores : Stores}
    {meaning : MagicSymbol → Meanings β} (h : IsPlain stratum stores meaning)
    (hrow : ∀ n, ∀ p ∈ meaning n, p.2.OneRowEach) {limit : RowLimit}
    (hlimit : limit.numToTake = none) (budget : Budget) (spent : ℕ)
    {finite : MagicSymbol → Finset Tuple}
    (hfinite : ∀ n ∈ stratum.names, h.naive.least n ⊆ finite n ∧
      ∑ t ∈ finite n, t.bare.length ≤ arenaMax) :
    (¬IsLimit (evaluateStratum ops stratum stores limit budget spent) →
      ∃ stores' spent', evaluateStratum ops stratum stores limit budget spent =
          .ok (stores', spent', false) ∧
        SameBelow stratum.names stores stores' ∧ relations stores' = h.naive.least) ∧
    (budget.derivedTupleCeiling = none →
      (stratum.names.map fun n => (finite n).card).sum < budget.epochCeiling →
      ¬IsLimit (evaluateStratum ops stratum stores limit budget spent)) := by
  have hdisabled : (QueryLimiter.new limit).enabled = false := by
    rw [QueryLimiter.new, hlimit]
    rfl
  rcases epochLoop_stratum ops h hrow budget hdisabled spent fun n hn => (hfinite n hn).1 with
    ⟨⟨e, he⟩, hwhy⟩ | ⟨n, hn, ts, hnodup, hmem, hover⟩ | ⟨s, hresult, hsame, hused, hleast⟩
  · have hrun : IsLimit (evaluateStratum ops stratum stores limit budget spent) := by
      refine ⟨e, ?_⟩
      rw [evaluateStratum, he]
      rfl
    refine ⟨fun hno => absurd hrun hno, fun hnone hlt => ?_⟩
    rcases hwhy with hceiling | hle
    · exact absurd hnone hceiling
    · omega
  · -- The rows fit, so no store outgrows its arena.
    classical
    have hle : (ts.map fun t => t.bare.length).sum ≤ ∑ t ∈ finite n, t.bare.length := by
      rw [← sum_toFinset _ hnodup]
      refine Finset.sum_le_sum_of_subset fun t ht => ?_
      exact (hfinite n hn).1 (hmem t (mem_toFinset.mp ht))
    have := (hfinite n hn).2
    omega
  · have hrun : evaluateStratum ops stratum stores limit budget spent =
        .ok (s.stores, s.spentDerived, false) := by
      rw [evaluateStratum, hresult, ← hused]
      rfl
    refine ⟨fun _ => ⟨s.stores, s.spentDerived, hrun, hsame, hleast⟩, fun _ _ => ?_⟩
    rintro ⟨e, he⟩
    cases hrun.symm.trans he

/-! ## Bodies that need given rows -/

/-- The aggregation `count` (`AggrCount`), alone. -/
def NormalAggr.counting : NormalAggr where
  State := Int64
  normalOp _ _ := .ok 0
  set n _ := .ok (n + 1)
  get n := .ok (.num (.int n))

/-- Whether a scan shows a row. -/
def shows (scan : Scan) (t : Tuple) : Bool :=
  match scan with
  | .ok rows => rows.any fun r => r.full == t.bare
  | .error _ => false

/-- A body that derives a row once given rows stand at its occurrences. -/
structure Needs where
  needs : List (AtomOccurrence × MagicSymbol × List Tuple)
  out : Tuple

namespace Needs

variable (b : Needs)

/-- Whether a store shows a row, in its total or in its delta. -/
def reads (stores : Stores) (delta : Bool) (n : MagicSymbol) (t : Tuple) : Bool :=
  match stores n with
  | some s => shows (if delta then s.deltaAllIter else s.allIter) t
  | none => false

/-- The body as the evaluator sees it. -/
def body : RuleBody Empty where
  forEachDerivation stores narrowed :=
    if b.needs.all fun (o, n, ts) => ts.all (reads stores (narrowed == some o) n) then [.ok b.out]
    else []
  containedRules := b.needs.map fun (o, n, _) => (o, n)

/-- What the body means. -/
def meaning : BodyMeaning where
  occurrences := b.needs.map fun (o, n, _) => (o, n)
  derive r := {t | t = b.out ∧ ∀ e ∈ b.needs, ∀ u ∈ e.2.2, u ∈ r e.1}

lemma shows_iff {scan : Scan} {t : Tuple} :
    shows scan t = true ↔ ∃ rows, scan = .ok rows ∧ ∃ r ∈ rows, r.full = t.bare := by
  rcases scan with e | rows
  · simp [shows]
  · simp [shows]

lemma reads_iff {stores : Stores} {delta : Bool} {t : Tuple} :
    reads stores delta n t = true ↔
      t ∈ (if delta then deltas stores n else relations stores n) := by
  rw [reads]
  rcases hs : stores n with _ | s
  · cases delta <;> simp [relations, deltas, hs]
  · rw [deltas_of_some hs, relations_of_some hs]
    cases delta
    · exact shows_iff
    · exact shows_iff

lemma honours (hnodup : (b.needs.map Prod.fst).Nodup) (names : List MagicSymbol) (stores : Stores) :
    Honours names stores b.body b.meaning := by
  have hinputs : ∀ (rel : MagicSymbol → Set Tuple), ∀ e ∈ b.needs,
      b.meaning.inputs rel e.1 = rel e.2.1 := by
    intro rel e he
    ext t
    constructor
    · rintro ⟨n, hn, ht⟩
      obtain ⟨e', he', heq⟩ := mem_map.mp hn
      obtain ⟨h1, rfl⟩ := Prod.mk.inj heq
      rwa [← inj_on_of_nodup_map hnodup he' he h1]
    · exact fun ht => ⟨_, mem_map.mpr ⟨e, he, rfl⟩, ht⟩
  have hyields :
      ∀ (now : Stores) (narrowed : Option AtomOccurrence) (r : AtomOccurrence → Set Tuple),
      (∀ e ∈ b.needs, r e.1 =
        if narrowed == some e.1 then deltas now e.2.1 else relations now e.2.1) →
      Yields (b.body.forEachDerivation now narrowed) (b.meaning.derive r) := by
    intro now narrowed r hr
    have hall : (b.needs.all fun (o, n, ts) => ts.all (reads now (narrowed == some o) n)) = true ↔
        ∀ e ∈ b.needs, ∀ u ∈ e.2.2, u ∈ r e.1 := by
      simp only [all_eq_true]
      refine forall₂_congr fun e he => forall₂_congr fun u _ => ?_
      rw [hr e he, reads_iff]
    by_cases hneeds : ∀ e ∈ b.needs, ∀ u ∈ e.2.2, u ∈ r e.1
    · refine ⟨[b.out], if_pos (hall.mpr hneeds), fun t => ?_⟩
      rw [mem_singleton]
      exact ⟨fun h => ⟨h, hneeds⟩, And.left⟩
    · refine ⟨[], if_neg (hneeds ∘ hall.mp), fun t => ?_⟩
      exact iff_of_false not_mem_nil fun h => hneeds h.2
  refine ⟨rfl, fun now _ => ?_, fun now _ e he => ?_⟩
  · refine hyields now none _ fun e he => ?_
    rw [hinputs _ e he]
    rfl
  · refine hyields now (some e.1) _ fun e' he' => ?_
    obtain ⟨e₀, he₀, rfl⟩ := mem_map.mp he
    by_cases heq : e'.1 = e₀.1
    · rw [inj_on_of_nodup_map hnodup he' he₀ heq]
      simp
    · have hne : (some e₀.1 == some e'.1) = false := by simpa using Ne.symm heq
      rw [Function.update_of_ne heq, hinputs _ e' he', hne]
      rfl

lemma monotone : b.meaning.Monotone := by
  rintro r r' hr t ⟨rfl, hneeds⟩
  refine ⟨rfl, fun e he u hu => ?_⟩
  exact hr (e.1, e.2.1) (mem_map.mpr ⟨e, he, rfl⟩) (hneeds e he u hu)

lemma oneRowEach (row : AtomOccurrence → Tuple) (hone : ∀ e ∈ b.needs, e.2.2 = [row e.1]) :
    b.meaning.OneRowEach := by
  rintro r t ⟨rfl, hneeds⟩
  refine ⟨row, fun e he => ?_, rfl, fun e he u hu => ?_⟩
  · obtain ⟨e', he', rfl⟩ := mem_map.mp he
    exact hneeds e' he' _ (by rw [hone e' he']; exact .head _)
  · rw [hone e he] at hu
    exact mem_singleton.mp hu

/-! ## Two strata -/

/-- A rule store of a fresh query. -/
def store (name : String) : MagicSymbol := .muggle ⟨name⟩

/-- A plain head with one column. -/
def head (b : Needs) (bs : List Needs) : EvalDefinition Empty :=
  .rules ⟨[.plain], (b :: bs).map body, cons_ne_nil _ _⟩

/-- The stratum with the given heads. -/
def evalStratum (heads : List (MagicSymbol × Needs × List Needs))
    (hnodup : (heads.map Prod.fst).Nodup) : EvalStratum Empty where
  defs := heads.map fun e => (e.1, head e.2.1 e.2.2)
  nodup := by rwa [map_map]

/-- Fresh stores for all names. -/
def freshStores : Stores := fun _ => some (.newNormal 1)

/-- The bodies of the heads with their meanings. -/
def meaningsOf (heads : List (MagicSymbol × Needs × List Needs)) (n : MagicSymbol) :
    Meanings Empty :=
  match heads.lookup n with
  | some (b, bs) => (b :: bs).map fun b => (b.body, b.meaning)
  | none => []

lemma lookup_map {γ δ : Type} (f : γ → δ) (l : List (MagicSymbol × γ)) (n : MagicSymbol) :
    (l.map fun e => (e.1, f e.2)).lookup n = (l.lookup n).map f := by
  induction l with
  | nil => rfl
  | cons e l ih =>
    rw [map_cons, lookup_cons, lookup_cons]
    rcases n == e.1 with _ | _
    · exact ih
    · rfl

section

variable {heads : List (MagicSymbol × Needs × List Needs)} (hnodup : (heads.map Prod.fst).Nodup)

lemma exists_of_mem_meaningsOf {p : RuleBody Empty × BodyMeaning} (hp : p ∈ meaningsOf heads n) :
    ∃ e ∈ heads, ∃ b ∈ e.2.1 :: e.2.2, p = (b.body, b.meaning) := by
  rw [meaningsOf] at hp
  rcases hlookup : heads.lookup n with _ | ⟨b, bs⟩
  · simp [hlookup] at hp
  · simp only [hlookup] at hp
    obtain ⟨b', hb', rfl⟩ := mem_map.mp hp
    obtain ⟨l₁, l₂, heads_eq, -⟩ := lookup_eq_some_iff.mp hlookup
    exact ⟨(n, b, bs), heads_eq ▸ by simp, b', hb', rfl⟩

section

variable (hoccs : ∀ e ∈ heads, ∀ b ∈ e.2.1 :: e.2.2, (b.needs.map Prod.fst).Nodup)
include hoccs

lemma isPlain : IsPlain (evalStratum heads hnodup) freshStores (meaningsOf heads) where
  plain e he := by
    obtain ⟨e', -, rfl⟩ := mem_map.mp he
    exact ⟨_, rfl, rfl⟩
  fresh n _ := ⟨1, rfl⟩
  bodies n := by
    have hdefs : (evalStratum heads hnodup).defs.lookup n =
        (heads.lookup n).map fun e => head e.1 e.2 :=
          lookup_map (fun e : Needs × List Needs => head e.1 e.2) heads n
    rw [EvalStratum.bodiesOf, hdefs, meaningsOf]
    rcases heads.lookup n with _ | ⟨b, bs⟩
    · rfl
    · simp only [Option.map_some, head, map_map]
      rfl
  honours n p hp := by
    obtain ⟨e, he, b, hb, rfl⟩ := exists_of_mem_meaningsOf hp
    exact b.honours (hoccs e he b hb) _ _
  monotone n p hp := by
    obtain ⟨e, he, b, hb, rfl⟩ := exists_of_mem_meaningsOf hp
    exact b.monotone
  stored n p hp e he := ⟨_, rfl⟩
  below n _ s hs hdelta := by
    cases hs
    exact absurd hdelta (by decide)

lemma least_subset
    {rows : Set Tuple} (hrows : ∀ e ∈ heads, ∀ b ∈ e.2.1 :: e.2.2, b.out ∈ rows) (n : MagicSymbol) :
    (isPlain hnodup hoccs).naive.least n ⊆ rows := by
  have hle : (isPlain hnodup hoccs).naive.consequence (fun _ => rows) ≤ fun _ => rows := by
    rintro m t (ht | ⟨b, hb, ht⟩)
    · rw [IsPlain.given_eq] at ht
      obtain ⟨s, hs, hts⟩ := ht
      cases hs
      obtain ⟨o, ho, -⟩ := (EpochStore.HasMerged.newNormal 1).mem_total.mp hts
      exact absurd ho not_mem_nil
    · obtain ⟨p, hp, rfl⟩ := mem_map.mp hb
      obtain ⟨e, he, b', hb', rfl⟩ := exists_of_mem_meaningsOf hp
      exact ht.1 ▸ hrows e he b' hb'
  exact OrderHom.lfp_le _ hle n

end

lemma mem_least {hnodup : (heads.map Prod.fst).Nodup}
    (h : IsPlain (evalStratum heads hnodup) freshStores (meaningsOf heads))
    {b : Needs} (hb : (b.body, b.meaning) ∈ meaningsOf heads n)
    (hneeds : ∀ e ∈ b.needs, ∀ u ∈ e.2.2, u ∈ h.naive.least e.2.1) : b.out ∈ h.naive.least n := by
  refine h.naive.derive_subset_least (mem_map.mpr ⟨_, hb, rfl⟩) (fun _ => le_rfl)
    ⟨rfl, fun e he u hu => ?_⟩
  exact ⟨e.2.1, mem_map.mpr ⟨e, he, rfl⟩, hneeds e he u hu⟩

end

end Needs

section Runs

open Needs

/-- A stratum with two heads: `p` has one row, and another once it has the first; `q` reads `p`. -/
def twoHeads (b : Needs) : List (MagicSymbol × Needs × List Needs) :=
  [(store "p", ⟨[], [.bool true]⟩, [⟨[(0, store "p", [[.bool true]])], [.bool false]⟩]),
    (store "q", b, [])]

lemma twoHeads_nodup (b : Needs) : ((twoHeads b).map Prod.fst).Nodup :=
  show [store "p", store "q"].Nodup by decide

lemma twoHeads_occurrences {b : Needs} (hb : (b.needs.map Prod.fst).Nodup) :
    ∀ e ∈ twoHeads b, ∀ b' ∈ e.2.1 :: e.2.2, (b'.needs.map Prod.fst).Nodup := by
  simp [twoHeads, hb]

/-- Both rows of `p` are defined. -/
theorem mem_least_p {b : Needs}
    (h : IsPlain (evalStratum (twoHeads b) (twoHeads_nodup b)) freshStores
      (meaningsOf (twoHeads b))) :
    [.bool true] ∈ h.naive.least (store "p") ∧ [.bool false] ∈ h.naive.least (store "p") := by
  have hyes : [.bool true] ∈ h.naive.least (store "p") :=
    mem_least h (b := ⟨[], [.bool true]⟩) mem_cons_self (by simp)
  refine ⟨hyes, ?_⟩
  exact mem_least h (b := ⟨[(0, store "p", [[.bool true]])], [.bool false]⟩)
    (.tail _ (.head _)) (by simpa using hyes)

/-- A body that needs two rows of one occurrence is monotone, but no pass shows it both: they come
in different epochs, and it never derives its row. -/
theorem semi_naive_misses_row :
    ∃ (stratum : EvalStratum Empty) (stores : Stores) (meaning : MagicSymbol → Meanings Empty)
      (h : IsPlain stratum stores meaning) (stores' : Stores) (n : MagicSymbol),
      evaluateStratum .counting stratum stores ⟨none, none⟩ ⟨10, none, by decide⟩ 0 =
        .ok (stores', 2, false) ∧
      n ∈ stratum.names ∧ [] ∈ h.naive.least n ∧ [] ∉ relations stores' n := by
  let b : Needs := ⟨[(0, store "p", [[.bool true], [.bool false]])], []⟩
  have hb : (b.needs.map Prod.fst).Nodup := by simp [b]
  let stratum := evalStratum (twoHeads b) (twoHeads_nodup b)
  have h : IsPlain stratum freshStores (meaningsOf (twoHeads b)) :=
    isPlain (twoHeads_nodup b) (twoHeads_occurrences hb)
  -- Naive evaluation finds both rows of `p`, and so the row of `q`.
  obtain ⟨hyes, hno⟩ := mem_least_p h
  have hq : [] ∈ h.naive.least (store "q") :=
    mem_least h (b := b) mem_cons_self (by simpa [b] using ⟨hyes, hno⟩)
  have hrun : (match evaluateStratum .counting stratum freshStores ⟨none, none⟩
      ⟨10, none, by decide⟩ 0 with
      | .ok (stores', spent, used) =>
        !reads stores' false (store "q") [] && spent == 2 && !used
      | .error _ => false) = true := by decide +kernel
  rcases heval : evaluateStratum .counting stratum freshStores ⟨none, none⟩ ⟨10, none, by decide⟩ 0
    with e | ⟨stores', spent, used⟩
  · simp [heval] at hrun
  · simp only [heval, Bool.and_eq_true, Bool.not_eq_true', beq_iff_eq] at hrun
    obtain ⟨⟨hreads, rfl⟩, rfl⟩ := hrun
    refine ⟨stratum, freshStores, _, h, stores', store "q", heval, ?_, hq, fun hmem => ?_⟩
    · exact .tail _ (.head _)
    · rw [reads_iff.mpr (show [] ∈ if false = true then _ else relations stores' _
        from hmem)] at hreads
      cases hreads

/-- A body that reads one store at two occurrences. -/
def selfJoin : Needs :=
  ⟨[(0, store "p", [[.bool true]]), (1, store "p", [[.bool false]])], []⟩

theorem semi_naive_eq_least_selfJoin : ∃ (stores' : Stores) (spent : ℕ),
      evaluateStratum .counting (evalStratum (twoHeads selfJoin) (twoHeads_nodup _)) freshStores
        ⟨none, none⟩ ⟨10, none, by decide⟩ 0 = .ok (stores', spent, false) ∧
      [] ∈ relations stores' (store "q") := by
  have hb : (selfJoin.needs.map Prod.fst).Nodup := by simp [selfJoin]
  have h := isPlain (twoHeads_nodup selfJoin) (twoHeads_occurrences hb)
  let rows : Finset Tuple := ⟨([[], [.bool true], [.bool false]] : List Tuple), by decide⟩
  have hrows : ∀ e ∈ twoHeads selfJoin, ∀ b' ∈ e.2.1 :: e.2.2, b'.out ∈ (rows : Set Tuple) := by
    simp [twoHeads, selfJoin, rows]
  have hneeds : ∀ e ∈ twoHeads selfJoin, ∀ b' ∈ e.2.1 :: e.2.2, ∀ e' ∈ b'.needs,
      e'.2.2 = [if e'.1 = 0 then [.bool true] else [.bool false]] := by
    decide
  have hone : ∀ n, ∀ p ∈ meaningsOf (twoHeads selfJoin) n, p.2.OneRowEach := by
    intro n p hp
    obtain ⟨e, he, b', hb', rfl⟩ := exists_of_mem_meaningsOf hp
    refine b'.oneRowEach (fun o => if o = 0 then [.bool true] else [.bool false]) ?_
    exact hneeds e he b' hb'
  obtain ⟨hrun, hbudget⟩ := @semi_naive_eq_least _ .counting _ _ _ h hone ⟨none, none⟩ rfl
    ⟨10, none, by decide⟩ 0 (fun _ => rows) fun n _ =>
      ⟨least_subset _ (twoHeads_occurrences hb) hrows n, by decide +kernel⟩
  obtain ⟨stores', spent, heval, -, hleast⟩ := hrun (hbudget rfl (by decide +kernel))
  obtain ⟨hyes, hno⟩ := mem_least_p h
  refine ⟨stores', spent, heval, hleast ▸ ?_⟩
  exact mem_least h (b := selfJoin) mem_cons_self (by simpa [selfJoin] using ⟨hyes, hno⟩)

end Runs

end Kyzo
