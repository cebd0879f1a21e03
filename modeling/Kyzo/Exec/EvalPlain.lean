import Kyzo.Exec.Eval
import Kyzo.Exec.NormalSets
import Kyzo.Lib.SemiNaive

/-!
# Epochs of plain rules

What a plain rule derives in an epoch without a row limit: exactly the rows of its passes that its
total does not hold, unless the budget refuses.
-/

namespace Kyzo

open List Function RegularTempStore

variable {β : Type}

/-! ## Ticks -/

namespace InterruptTicker

variable (t : InterruptTicker) (inFlight : ℕ)

/-- **A tick** goes on, or refuses over the ceiling. -/
theorem tick_cases : (∃ countdown, t.tick (β := β) inFlight = .ok { t with countdown }) ∨
      ∃ ceiling, t.ceiling = some ceiling ∧ ceiling < t.baseline + inFlight ∧
        t.tick (β := β) inFlight =
          .error (.limit ⟨.inFlightDerivations, t.baseline + inFlight, ceiling, some t.rule⟩) := by
  rw [tick]
  rcases t.countdown.tick with ⟨elapsed, countdown⟩
  rcases elapsed with _ | _
  · exact .inl ⟨countdown, rfl⟩
  · rcases hceiling : t.ceiling with _ | ceiling
    · exact .inl ⟨countdown, rfl⟩
    · by_cases hover : ceiling < t.baseline + inFlight
      · exact .inr ⟨ceiling, rfl, hover, if_pos hover⟩
      · exact .inl ⟨countdown, if_neg hover⟩

end InterruptTicker

/-- A refusal of the budget. -/
def IsLimit {α : Type} (x : EvalM β α) : Prop := ∃ e, x = .error (.limit e)

/-! ## Out-stores -/

namespace RegularTempStore

lemma rows_empty : empty.rows = ∅ := by
  simp [rows, existsKey, empty]

variable {o : RegularTempStore} {t u : Tuple}

lemma mem_rows_insert {skip : LimiterSkip} :
    u ∈ rows ⟨o.inner.insert (.encode t) skip⟩ ↔ u = t ∨ u ∈ o.rows := by
  simp only [rows, existsKey, Set.mem_ofPred_eq, Std.TreeMap.contains_insert, Bool.or_eq_true,
    beq_iff_eq, Std.LawfulEqOrd.compare_eq_iff_eq]
  refine or_congr_left ⟨fun h => ?_, fun h => by rw [h]⟩
  exact (Tuple.bare_injective (congrArg OwnBareKey.bytes h)).symm

lemma mem_rows_put : u ∈ (o.put t).rows ↔ u = t ∨ u ∈ o.rows :=
  mem_rows_insert

end RegularTempStore

/-! ## The callback of a plain rule -/

/-- **A run of the callback** without a row limit keeps the rows that are not known. -/
theorem consume_derivePlain (known : Tuple → Bool) (items : List Tuple) (s : PlainState) :
    (IsLimit (consume (derivePlain (β := β) known false) s (items.map .ok)) ∧
      s.ticker.ceiling ≠ none) ∨
      ∃ s', consume (derivePlain (β := β) known false) s (items.map .ok) = .ok (s', false) ∧
        s'.limiter = s.limiter ∧
        ∀ t, t ∈ s'.out.rows ↔ t ∈ s.out.rows ∨ t ∈ items ∧ known t = false := by
  induction items generalizing s with
  | nil => exact .inr ⟨s, rfl, rfl, by simp⟩
  | cons item items ih =>
    rw [map_cons, consume]
    rcases s.ticker.tick_cases (β := β) s.out.len with
      ⟨countdown, htick⟩ | ⟨ceiling, hsome, -, htick⟩
    · -- The row is known, is there already, or is kept.
      set s₁ : PlainState := { s with ticker := { s.ticker with countdown } } with hs₁
      have hstep : ∃ out, derivePlain (β := β) known false s item = .ok ({ s₁ with out }, false) ∧
          ∀ t, t ∈ out.rows ↔ t ∈ s.out.rows ∨ t = item ∧ known t = false := by
        by_cases hknown : known item = true
        · refine ⟨s.out, ?_, fun t => ?_⟩
          · simp [derivePlain, htick, hknown, hs₁, bind, Except.bind, pure, Except.pure]
          · refine ⟨.inl, fun h => h.resolve_right ?_⟩
            rintro ⟨rfl, hfalse⟩
            exact absurd (hknown.symm.trans hfalse) (by decide)
        · rw [Bool.not_eq_true] at hknown
          by_cases hthere : s.out.existsKey item = true
          · refine ⟨s.out, ?_, fun t => ?_⟩
            · simp [derivePlain, htick, hknown, admitRow, hthere, hs₁, bind, Except.bind, pure,
                Except.pure]
            · refine ⟨.inl, fun h => h.elim id ?_⟩
              rintro ⟨rfl, -⟩
              exact hthere
          · refine ⟨s.out.put item, ?_, fun t => ?_⟩
            · simp [derivePlain, htick, hknown, admitRow, hthere, hs₁, bind, Except.bind, pure,
                Except.pure]
            · rw [mem_rows_put, or_comm]
              refine or_congr_right ⟨fun h => ⟨h, h ▸ hknown⟩, And.left⟩
      obtain ⟨out, hout, hrows⟩ := hstep
      rw [hout]
      rcases ih { s₁ with out } with ⟨hlimit, hceiling⟩ | ⟨s', hs', hlimiter, hrows'⟩
      · exact .inl ⟨hlimit, hceiling⟩
      · refine .inr ⟨s', hs', hlimiter, fun t => ?_⟩
        rw [hrows', hrows, mem_cons, or_and_right, or_assoc]
    · have hstep : derivePlain (β := β) known false s item = .error (.limit
          ⟨.inFlightDerivations, s.ticker.baseline + s.out.len, ceiling, some s.ticker.rule⟩) := by
        rw [derivePlain, htick]
        rfl
      rw [hstep]
      exact .inl ⟨⟨_, rfl⟩, by rw [hsome]; exact Option.some_ne_none _⟩

/-! ## The contract of rule bodies -/

/-- The rows of the stores, by name. -/
def relations (stores : Stores) (name : MagicSymbol) : Set Tuple :=
  {t | ∃ s, stores name = some s ∧ t ∈ s.total}

/-- The rows of the deltas, by name. -/
def deltas (stores : Stores) (name : MagicSymbol) : Set Tuple :=
  {t | ∃ s, stores name = some s ∧ t ∈ s.delta}

variable {name : MagicSymbol}

section

variable {stores : Stores} {s : EpochStore} (h : stores name = some s)
include h

lemma relations_of_some : relations stores name = s.total := by
  simp [relations, h]

lemma deltas_of_some : deltas stores name = s.delta := by
  simp [deltas, h]

end

/-- Only the stores of the stratum differ. -/
def SameBelow (names : List MagicSymbol) (stores stores' : Stores) : Prop :=
  ∀ n, n ∉ names → stores' n = stores n

/-- A stream without an error, of the rows `rows`. -/
def Yields {ε : Type} (stream : List (Except ε Tuple)) (rows : Set Tuple) : Prop :=
  ∃ items : List Tuple, stream = items.map .ok ∧ ∀ t, t ∈ items ↔ t ∈ rows

/-- What a body derives from rows at its occurrences. -/
abbrev BodyMeaning := SemiNaive.Body MagicSymbol AtomOccurrence Tuple

/-- **The contract of a rule body** in a stratum of the names: over any stores that are the given
ones outside the stratum, a pass derives what the body means over the totals, with the delta at the
occurrence it narrows. -/
structure Honours (names : List MagicSymbol) (stores : Stores) (body : RuleBody β)
    (b : BodyMeaning) : Prop where
  occurrences : b.occurrences = body.containedRules
  totals : ∀ now, SameBelow names stores now →
    Yields (body.forEachDerivation now none) (b.derive (b.inputs (relations now)))
  narrowed : ∀ now, SameBelow names stores now → ∀ e ∈ body.containedRules,
    Yields (body.forEachDerivation now (some e.1))
      (b.derive (update (b.inputs (relations now)) e.1 (deltas now e.2)))

/-! ## The derivations of an epoch -/

lemma Yields.flatMap {ε α : Type} {rows : α → Set Tuple} {f : α → List (Except ε Tuple)}
    {l : List α} (h : ∀ a ∈ l, Yields (f a) (rows a)) :
    Yields (l.flatMap f) {t | ∃ a ∈ l, t ∈ rows a} := by
  induction l with
  | nil => exact ⟨[], rfl, by simp⟩
  | cons a l ih =>
    obtain ⟨hhead, htail⟩ := forall_mem_cons.mp h
    obtain ⟨first, hfirst, hmem⟩ := hhead
    obtain ⟨rest, hrest, hmem'⟩ := ih htail
    refine ⟨first ++ rest, by rw [flatMap_cons, hfirst, hrest, map_append], fun t => ?_⟩
    rw [mem_append, hmem, hmem', Set.mem_ofPred_eq, Set.mem_ofPred_eq, exists_mem_cons_iff]

lemma Yields.mapError {rows : Set Tuple} {stream : List (Except β Tuple)}
    (h : Yields stream rows) : Yields (stream.map (·.mapError EvalError.body)) rows := by
  obtain ⟨items, rfl, hmem⟩ := h
  exact ⟨items, map_map, hmem⟩

/-- Rule bodies with what they mean. -/
abbrev Meanings (β : Type) := List (RuleBody β × BodyMeaning)

/-- What the passes over totals derive. -/
def totalRows (bodies : Meanings β) (now : Stores) : Set Tuple :=
  {t | ∃ p ∈ bodies, t ∈ p.2.derive (p.2.inputs (relations now))}

/-- What the narrowed passes derive. -/
def deltaRows (bodies : Meanings β) (now : Stores) : Set Tuple :=
  {t | ∃ p ∈ bodies, ∃ e ∈ p.1.containedRules, (∃ s, now e.2 = some s ∧ s.hasDelta = true) ∧
    t ∈ p.2.derive (update (p.2.inputs (relations now)) e.1 (deltas now e.2))}

section

variable {names : List MagicSymbol} {stores now : Stores} {bodies : Meanings β}
  (hbodies : ∀ p ∈ bodies, Honours names stores p.1 p.2)
  (hsame : SameBelow names stores now)

include hbodies hsame

lemma totalPasses_spec : Yields (totalPasses now (bodies.map Prod.fst)) (totalRows bodies now) := by
  rw [totalPasses, flatMap_map]
  exact Yields.flatMap fun p hp => ((hbodies p hp).totals now hsame).mapError

lemma deltaPasses_spec (hstored : ∀ p ∈ bodies, ∀ e ∈ p.1.containedRules, ∃ s, now e.2 = some s) :
    Yields (deltaPasses now (bodies.map Prod.fst)) (deltaRows bodies now) := by
  rw [deltaPasses, flatMap_map]
  refine Yields.flatMap fun p hp => Yields.flatMap fun e he => ?_
  obtain ⟨s, hs⟩ := hstored p hp e he
  have hstore : storeOf (β := β) now e.2 = .ok s := by rw [storeOf, hs]
  simp only [hstore]
  by_cases hdelta : s.hasDelta = true
  · rw [if_pos hdelta]
    obtain ⟨items, hitems, hmem⟩ := ((hbodies p hp).narrowed now hsame e he).mapError
    refine ⟨items, hitems, fun t => (hmem t).trans ?_⟩
    exact ⟨fun h => ⟨⟨s, hs, hdelta⟩, h⟩, And.right⟩
  · rw [if_neg hdelta]
    refine ⟨[], rfl, fun t => iff_of_false not_mem_nil ?_⟩
    rintro ⟨⟨s', hs', hdelta'⟩, -⟩
    cases hs.symm.trans hs'
    exact hdelta hdelta'

/-! ## One rule's epoch -/

/-- What an epoch of one plain rule comes to without a row limit: an out-store with the rows `rows`,
unless the budget refuses. -/
def Derives (ceiling : Option ℕ) (limiter : QueryLimiter) (rows : Set Tuple)
    (result : EvalM β RuleEpoch) : Prop :=
  (IsLimit result ∧ ceiling ≠ none) ∨
    ∃ out, result = .ok (false, limiter, .normal out) ∧ out.rows = rows

variable (ops : NormalAggr) {r : EvalRuleSet β} {limiter : QueryLimiter} (hkind : r.kind = .none)
  (hr : r.bodies = bodies.map Prod.fst) (hlimit : limiter.enabled = false)

include hkind hr hlimit

attribute [local simp] execution

lemma execution_first (ceiling : Option ℕ) (baseline : ℕ) (name : MagicSymbol) :
    Derives ceiling limiter (totalRows bodies now)
      (execution ops 0 now ceiling baseline limiter name (.rules r)) := by
  obtain ⟨items, hitems, hmem⟩ := totalPasses_spec hbodies hsame
  simp only [execution, hkind, initialPlainEval, hr, hitems, hlimit, Bool.false_and]
  rcases consume_derivePlain (fun _ => false) items
    ⟨.new ceiling baseline name, limiter, .empty⟩ with ⟨⟨e, he⟩, hceiling⟩ | ⟨s', hs', hlim, hrows⟩
  · exact .inl ⟨⟨e, by rw [he]; rfl⟩, hceiling⟩
  · refine .inr ⟨s'.out, ?_, Set.ext fun t => ?_⟩
    · rw [hs']
      simp [bind, Except.bind, pure, Except.pure, hlim]
    · rw [hrows, rows_empty, hmem]
      simp

lemma execution_later (epoch : ℕ) (ceiling : Option ℕ) (baseline : ℕ)
    (hstored : ∀ p ∈ bodies, ∀ e ∈ p.1.containedRules, ∃ s, now e.2 = some s)
    {own : EpochStore} {outs : List RegularTempStore} (hown : now name = some own)
    (hmerged : own.HasMerged outs) :
    Derives ceiling limiter (deltaRows bodies now \ own.total)
      (execution ops (epoch + 1) now ceiling baseline limiter name (.rules r)) := by
  obtain ⟨items, hitems, hmem⟩ := deltaPasses_spec hbodies hsame hstored
  have hstore : storeOf (β := β) now name = .ok own := by rw [storeOf, hown]
  simp only [execution, hkind, incrementalPlainEval, hr, hitems, hlimit, Bool.false_and, hstore]
  rcases consume_derivePlain (β := β) own.existsKey items
    ⟨.new ceiling baseline name, limiter, .empty⟩ with ⟨⟨e, he⟩, hceiling⟩ | ⟨s', hs', hlim, hrows⟩
  · refine .inl ⟨⟨e, ?_⟩, hceiling⟩
    simp [bind, Except.bind, he]
  · refine .inr ⟨s'.out, ?_, Set.ext fun t => ?_⟩
    · simp [bind, Except.bind, hs', pure, Except.pure, hlim]
    · rw [hrows, rows_empty, hmem, ← Bool.not_eq_true, hmerged.existsKey_iff]
      simp

end

end Kyzo
