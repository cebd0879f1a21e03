import Kyzo.Exec.EvalPlain

/-!
# One epoch of a plain stratum

Without a row limit, an epoch runs every rule and merges what each derived; the barrier takes
exactly the new rows.  It refuses over the budget, or when the rows of a store outgrow its arena.
-/

namespace Kyzo

open List Function Prod

variable {β : Type} (ops : NormalAggr)

/-! ## The rules of an epoch -/

section

variable {epoch baseline : ℕ} {stores : Stores} {ceiling : Option ℕ} {limiter : QueryLimiter}
  {rows : MagicSymbol → Set Tuple} {defs : List (MagicSymbol × EvalDefinition β)}
  (hnodup : (defs.map fst).Nodup)
include hnodup

lemma mapM_plain (hexec : ∀ e ∈ defs, Derives ceiling limiter (rows e.1)
      (execution ops epoch stores ceiling baseline limiter e.1 e.2)) :
    let result := defs.mapM fun (name, d) =>
      (execution ops epoch stores ceiling baseline limiter name d).map fun r => (r.1, name, r.2.2)
    (IsLimit result ∧ ceiling ≠ none) ∨
      ∃ outs : List (MagicSymbol × TempStore), result = .ok (outs.map fun o => (false, o)) ∧
        ∀ n ∈ defs.map fst, ∃ out, outs.lookup n = some (.normal out) ∧ out.rows = rows n := by
  intro result
  induction defs with
  | nil => exact .inr ⟨[], rfl, by simp⟩
  | cons e defs ih =>
    obtain ⟨name, d⟩ := e
    obtain ⟨hhead, htail⟩ := forall_mem_cons.mp hexec
    rw [map_cons, nodup_cons] at hnodup
    have hcons : result = ((execution ops epoch stores ceiling baseline limiter name d).map
        fun r => (r.1, name, r.2.2)) >>= fun o => (defs.mapM fun (name, d) =>
          (execution ops epoch stores ceiling baseline limiter name d).map
            fun r => (r.1, name, r.2.2)) >>= fun os => pure (o :: os) := by
      simp [result, mapM_cons]
    rcases hhead with ⟨⟨e, he⟩, hceiling⟩ | ⟨out, hout, hrows⟩
    · refine .inl ⟨⟨e, ?_⟩, hceiling⟩
      rw [hcons, he]
      rfl
    · rcases ih hnodup.2 htail with ⟨⟨e, he⟩, hceiling⟩ | ⟨outs, houts, hlookup⟩
      · refine .inl ⟨⟨e, ?_⟩, hceiling⟩
        rw [hcons, hout, he]
        rfl
      · refine .inr ⟨(name, .normal out) :: outs, ?_, ?_⟩
        · rw [hcons, hout, houts]
          rfl
        · intro n hn
          rw [lookup_cons]
          rcases mem_cons.mp hn with rfl | hn
          · exact ⟨out, by rw [beq_self_eq_true], hrows⟩
          · have hne : (n == name) = false := beq_eq_false_iff_ne.mpr fun h => hnodup.1 (h ▸ hn)
            rw [hne]
            exact hlookup n hn

/-- **The rules of an epoch**, without a row limit. -/
theorem runEpoch_plain (hlimit : limiter.enabled = false)
    (hexec : ∀ e ∈ defs, Derives ceiling limiter (rows e.1)
      (execution ops epoch stores ceiling baseline limiter e.1 e.2)) :
    (IsLimit (runEpoch ops epoch defs stores ceiling baseline limiter) ∧ ceiling ≠ none) ∨
      ∃ toMerge, runEpoch ops epoch defs stores ceiling baseline limiter =
          .ok (false, limiter, toMerge) ∧
        ∀ n ∈ defs.map fst, ∃ out, toMerge n = some (.normal out) ∧ out.rows = rows n := by
  simp only [runEpoch, hlimit, Bool.false_and, filter_false, Bool.not_false, filter_true,
    runEntries, collectNonEntryBatch]
  rcases mapM_plain ops hnodup hexec with ⟨⟨e, he⟩, hceiling⟩ | ⟨outs, houts, hlookup⟩
  · refine .inl ⟨⟨e, ?_⟩, hceiling⟩
    simp only [bind, Except.bind] at he ⊢
    rw [he]
  · refine .inr ⟨fun n => outs.lookup n, ?_, hlookup⟩
    simp only [bind, Except.bind] at houts ⊢
    rw [houts]
    simp [pure, Except.pure, comp_def]

end

/-! ## The barrier -/

/-- The rows that a merge takes. -/
def admittedRows (outs : List RegularTempStore) (new : RegularTempStore) : ℕ :=
  (new.entries.filter fun e => (flagsOf outs e.1).isNone).length

/-- What a store is after one more merge. -/
structure MergedMore (outs : List RegularTempStore) (new : RegularTempStore)
    (before after : Option EpochStore) : Prop where
  merged : ∃ s s', before = some s ∧ after = some s' ∧ s'.HasMerged (outs ++ [new]) ∧
    (s.held + new.bytes ≤ arenaMax → s'.held ≤ s.held + new.bytes)

variable {outs : MagicSymbol → List RegularTempStore}

/-- **The barrier** of a plain stratum. -/
theorem barrier_plain {toMerge : MagicSymbol → Option TempStore} {names : List MagicSymbol}
    (hnodup : names.Nodup) {stores : Stores} {new : MagicSymbol → RegularTempStore}
    (hmerge : ∀ n ∈ names, toMerge n = some (.normal (new n)))
    (hown : ∀ n ∈ names, ∃ s, stores n = some s ∧ s.HasMerged (outs n)) :
    (∃ e, barrier (β := β) toMerge names stores = .error (.merge e) ∧
      ∃ n ∈ names, ∃ s, stores n = some s ∧ arenaMax < s.held + (new n).bytes) ∨
    ∃ stores' changed, barrier (β := β) toMerge names stores =
        .ok (stores', (names.map fun n => admittedRows (outs n) (new n)).sum, changed) ∧
      SameBelow names stores stores' ∧
      (∀ n ∈ names, MergedMore (outs n) (new n) (stores n) (stores' n)) ∧
      (changed = true ↔ ∃ n ∈ names, ∃ s', stores' n = some s' ∧ s'.hasDelta = true) := by
  induction names generalizing stores with
  | nil => exact .inr ⟨stores, false, rfl, fun _ _ => rfl, by simp, by simp⟩
  | cons name names ih =>
    obtain ⟨hname, hrest⟩ := nodup_cons.mp hnodup
    obtain ⟨hhead, htail⟩ := forall_mem_cons.mp hmerge
    obtain ⟨⟨s, hs, hmerged⟩, hown⟩ := forall_mem_cons.mp hown
    rw [barrier]
    simp only [hhead, hs]
    rcases hin : s.mergeIn (.normal (new name)) with ⟨e | admitted, s'⟩
    · refine .inl ⟨e, rfl, name, .head _, s, hs, ?_⟩
      by_contra hfit
      obtain ⟨n, s'', hok, -⟩ := hmerged.mergeIn_ok (Nat.le_of_not_lt hfit)
      cases hin.symm.trans hok
    · obtain ⟨hmerged', hadmitted⟩ := hmerged.mergeIn hin
      have hheld : s.held + (new name).bytes ≤ arenaMax → s'.held ≤ s.held + (new name).bytes := by
        intro hfit
        obtain ⟨n, s'', hok, hle⟩ := hmerged.mergeIn_ok hfit
        cases hin.symm.trans hok
        exact hle
      -- The other stores are as they were.
      have hother : ∀ n ∈ names, update stores name (some s') n = stores n := by
        intro n hn
        have hne : n ≠ name := fun h => hname (h ▸ hn)
        exact update_of_ne hne _ _
      have hown' : ∀ n ∈ names, ∃ s₁, update stores name (some s') n = some s₁ ∧
          s₁.HasMerged (outs n) := fun n hn => by
        rw [hother n hn]
        exact hown n hn
      rcases ih hrest htail hown' with ⟨e, he, n, hn, s₁, hs₁, hover⟩ |
        ⟨stores', changed, hok, hsame, hmore, hchanged⟩
      · refine .inl ⟨e, ?_, n, .tail _ hn, s₁, ?_, hover⟩
        · simp [he, bind, Except.bind]
        · rw [← hs₁, hother n hn]
      · have hself : stores' name = some s' := by
          rw [hsame name hname, update_self]
        refine .inr ⟨stores', s'.hasDelta || changed, ?_, ?_, ?_, ?_⟩
        · simp [hok, bind, Except.bind, pure, Except.pure, map_cons, sum_cons,
            hadmitted, admittedRows]
        · intro n hn
          obtain ⟨hne, hn⟩ := not_or.mp fun h => hn (mem_cons.mpr h)
          rw [hsame n hn, update_of_ne hne]
        · refine forall_mem_cons.mpr ⟨⟨s, s', hs, hself, hmerged', hheld⟩, fun n hn => ?_⟩
          have := hmore n hn
          rwa [hother n hn] at this
        · rw [Bool.or_eq_true, hchanged, exists_mem_cons_iff, hself]
          simp

/-! ## The epoch -/

instance : Inhabited RegularTempStore := ⟨.empty⟩

lemma admittedRows_eq_len {s : EpochStore} {outs : List RegularTempStore} {new : RegularTempStore}
    (h : s.HasMerged outs) (hnew : Disjoint new.rows s.total) :
    admittedRows outs new = new.len := by
  rw [admittedRows, new.len_eq, filter_eq_self.mpr]
  intro e he
  obtain ⟨t, ht⟩ := RegularTempStore.exists_bare_of_mem_entries he
  obtain ⟨ts, -, hkeys, hmem⟩ := new.exists_tuples
  have hrow : t ∈ new.rows := by
    have hin : e.1 ∈ ts.map Tuple.bare := hkeys ▸ mem_map.mpr ⟨e, he, rfl⟩
    obtain ⟨u, hu, heq⟩ := mem_map.mp hin
    rw [Tuple.bare_injective (ht.trans heq.symm)]
    exact (hmem u).mp hu
  have hnot := Set.disjoint_left.mp hnew hrow
  rw [h.mem_total, ← EpochStore.HasMerged.isSome_latestSkip, Bool.not_eq_true,
    Option.isSome_eq_false_iff] at hnot
  rw [← ht, flagsOf_bare, hnot]

lemma checkSpent_cases (ceiling : Option ℕ) (spent : ℕ) :
    checkSpent (β := β) ceiling spent = .ok () ∨
      IsLimit (checkSpent (β := β) ceiling spent) ∧ ceiling ≠ none := by
  rcases ceiling with _ | ceiling
  · exact .inl rfl
  · by_cases hover : ceiling < spent
    · exact .inr ⟨⟨_, if_pos hover⟩, Option.some_ne_none _⟩
    · exact .inl (if_neg hover)

/-- What an epoch of a plain stratum comes to that derives the rows `rows`. -/
inductive EpochOutcome (budget : Budget) (names : List MagicSymbol) (rows : MagicSymbol → Set Tuple)
    (outs : MagicSymbol → List RegularTempStore) (s : EvalState)
    (result : EvalM β (EvalState × Bool)) : Prop where
  /-- The budget refuses. -/
  | limit (h : IsLimit result) (hceiling : budget.derivedTupleCeiling ≠ none)
  /-- A store outgrows its arena. -/
  | overflow (new : MagicSymbol → RegularTempStore) (e : MergeRefuse) (n : MagicSymbol)
    (st : EpochStore) (h : result = .error (.merge e)) (hrows : ∀ n ∈ names, (new n).rows = rows n)
    (hn : n ∈ names) (hst : s.stores n = some st) (hover : arenaMax < st.held + (new n).bytes)
  /-- The barrier takes the rows. -/
  | merged (new : MagicSymbol → RegularTempStore) (s' : EvalState) (changed : Bool)
    (h : result = .ok (s', changed)) (hrows : ∀ n ∈ names, (new n).rows = rows n)
    (hsame : SameBelow names s.stores s'.stores)
    (hmore : ∀ n ∈ names, MergedMore (outs n) (new n) (s.stores n) (s'.stores n))
    (hspent : s'.spentDerived = s.spentDerived + (names.map fun n => (new n).len).sum)
    (hchanged : changed = true ↔ ∃ n ∈ names, (rows n).Nonempty)
    (hlimiter : s'.limiter = s.limiter) (hused : s'.usedLimiter = s.usedLimiter)

/-- **One epoch** of a plain stratum whose rules derive rows that their stores do not hold. -/
theorem epochStep_plain (budget : Budget) (stratum : EvalStratum β) (epoch : ℕ) {s : EvalState}
    {rows : MagicSymbol → Set Tuple} (hlimit : s.limiter.enabled = false)
    (hexec : ∀ e ∈ stratum.defs, Derives budget.derivedTupleCeiling s.limiter (rows e.1)
      (execution ops epoch s.stores budget.derivedTupleCeiling s.spentDerived s.limiter e.1 e.2))
    (hown : ∀ n ∈ stratum.defs.map fst, ∃ st, s.stores n = some st ∧ st.HasMerged (outs n) ∧
      Disjoint (rows n) st.total) : EpochOutcome budget (stratum.defs.map fst) rows outs s
      (epochStep ops budget stratum epoch s) := by
  rcases runEpoch_plain ops stratum.nodup hlimit hexec with ⟨⟨e, he⟩, hceiling⟩ |
    ⟨toMerge, hrun, hmerge⟩
  · refine .limit ⟨e, ?_⟩ hceiling
    rw [epochStep, he]
    rfl
  · choose! new hnew using hmerge
    rcases barrier_plain (β := β) stratum.nodup (fun n hn => (hnew n hn).1)
        (fun n hn => (hown n hn).imp fun st h => ⟨h.1, h.2.1⟩) with
      ⟨e, he, n, hn, st, hst, hover⟩ | ⟨stores', changed, hok, hsame, hmore, hchanged⟩
    · refine .overflow new e n st ?_ (fun n hn => (hnew n hn).2) hn hst hover
      simp [epochStep, hrun, he, bind, Except.bind]
    · have hadmitted : ((stratum.defs.map fst).map fun n =>
          admittedRows (outs n) (new n)) = (stratum.defs.map fst).map fun n => (new n).len := by
        refine map_congr_left fun n hn => ?_
        obtain ⟨st, -, hmerged, hdisj⟩ := hown n hn
        exact admittedRows_eq_len hmerged ((hnew n hn).2 ▸ hdisj)
      rw [hadmitted] at hok
      set spent := s.spentDerived + ((stratum.defs.map fst).map fun n => (new n).len).sum
        with hspent
      have hstep : epochStep ops budget stratum epoch s =
          (checkSpent budget.derivedTupleCeiling spent >>= fun _ =>
            .ok (⟨stores', s.limiter, s.usedLimiter, spent⟩, changed)) := by
        simp [epochStep, hrun, hok, bind, Except.bind, pure, Except.pure, Bool.or_false, hspent]
      rcases checkSpent_cases budget.derivedTupleCeiling spent with hpass |
        ⟨⟨e, he⟩, hceiling⟩
      · refine .merged new ⟨stores', s.limiter, s.usedLimiter, spent⟩ changed
          (by rw [hstep, hpass]; rfl) (fun n hn => (hnew n hn).2) hsame hmore rfl ?_ rfl rfl
        rw [hchanged]
        refine exists_congr fun n => and_congr_right fun hn => ?_
        obtain ⟨st, hst, hmerged, hdisj⟩ := hown n hn
        obtain ⟨st₀, st', hst₀, hst', hmerged', -⟩ := (hmore n hn).merged
        rw [← (hnew n hn).2] at hdisj ⊢
        constructor
        · rintro ⟨st'', hst'', hdelta⟩
          cases hst'.symm.trans hst''
          obtain ⟨t, ht⟩ := hmerged'.hasDelta_iff.mp hdelta
          exact ⟨t, ((hmerged'.mem_delta_concat hmerged).mp ht).1⟩
        · rintro ⟨t, ht⟩
          refine ⟨st', hst', hmerged'.hasDelta_iff.mpr ⟨t, ?_⟩⟩
          exact (hmerged'.mem_delta_concat hmerged).mpr ⟨ht, Set.disjoint_left.mp hdisj ht⟩
      · refine .limit ⟨e, ?_⟩ hceiling
        rw [hstep, he]
        rfl

end Kyzo
