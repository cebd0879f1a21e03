import Kyzo.Exec.RelIter
import Kyzo.Plan.WellOrder

/-!
# What an operator tree means

The rows of a tree under the names of its columns, without the strategies by which the operators
compute them: a scan holds the rows its filters let pass, a join the pairs that agree on the joined
columns, an anti-join the rows that go with none of the right.  Beside it stands what a run needs in
order not to fail.
-/

namespace Kyzo

open List

namespace PlanReads

variable (rd : PlanReads)

/-- A scan reads the row. -/
def Scans (source : ScanSource) (row : Tuple) : Prop :=
  ∃ rows, rd.scanRows source = .ok rows ∧ row ∈ rows

/-- A scan under negation reads the row. -/
def Totals : NegRight → Tuple → Prop
  | .scan source _ _, row => ∃ rows, rd.totalRows source = .ok rows ∧ row ∈ rows
  | .derived source _, row => row ∈ rd.derivedRows source

/-- The rows under negation can be read. -/
def Readable : NegRight → Prop
  | .scan source _ _ => ∃ rows, rd.totalRows source = .ok rows
  | .derived _ _ => True

variable {rd}

lemma scans_iff {source : ScanSource} {rows : List Tuple} (h : rd.scanRows source = .ok rows)
    {row : Tuple} : rd.Scans source row ↔ row ∈ rows := by
  constructor
  · rintro ⟨rows', hrows', hrow⟩
    rwa [Except.ok.inj (h.symm.trans hrows')]
  · exact fun hrow => ⟨rows, h, hrow⟩

end PlanReads

/-- Two rows agree on pairs of names. -/
def Agree (keys : List (Symbol × Symbol)) (left right : List Symbol) (l r : Tuple) : Prop :=
  ∀ k ∈ keys, rowEnv left l k.1 = rowEnv right r k.2

/-- The join columns are the first columns of the right side. -/
def Joiner.OnPrefix (j : Joiner) (right : List Symbol) : Prop :=
  j.rightKeys.Perm (right.take j.rightKeys.length)

instance (j : Joiner) (right : List Symbol) : Decidable (j.OnPrefix right) :=
  inferInstanceAs (Decidable (List.Perm _ _))

/-- The columns a probe can bound, the first `n` being joined. -/
def ScanSource.boundColumns (source : ScanSource) (bindings : List Symbol) (n : ℕ) : List Symbol :=
  match source with
  | .tempStore _ _ => bindings.drop n
  | .stored h | .storedWithValidity h _ => h.keysFrom bindings n

/-- After its first `n` columns a row lies in the bounds that filters give a probe. -/
def InScan (columns : List Symbol) (filters : List Expr) (n : ℕ) (row : Tuple) : Prop :=
  ∀ lower upper, scanBounds filters columns = some (lower, upper) →
    AtOrAbove (row.drop n) lower ∧ AtOrBelow (row.drop n) upper

/-- What a value unified with a column binds it to. -/
def UnificationKind.items : UnificationKind → DataValue → Option (List DataValue)
  | .single, val => some [val]
  | .spread, val => val.getSlice

/-- The keys a probe compares: of a relation at another time, those that are columns of its key. -/
def ScanSource.probedKeys (source : ScanSource) (bindings : List Symbol)
    (keys : List (Symbol × Symbol)) : List (Symbol × Symbol) :=
  match source with
  | .storedWithValidity h _ => keys.filter (·.2 ∈ bindings.take h.keyLen)
  | _ => keys

/-- The columns on which a join compares. -/
def comparedKeys (right : RelAlgebra) (j : Joiner) : List (Symbol × Symbol) :=
  match right with
  | .scan source bindings _ =>
    if j.OnPrefix bindings then source.probedKeys bindings (j.leftKeys.zip j.rightKeys)
    else j.leftKeys.zip j.rightKeys
  | _ => j.leftKeys.zip j.rightKeys

/-- The scan on the right of a join that is probed. -/
def probedScan (right : RelAlgebra) (j : Joiner) : Option (ScanSource × List Symbol × List Expr) :=
  match right with
  | .scan source bindings filters =>
    if j.OnPrefix bindings then some (source, bindings, filters) else none
  | _ => none

variable {lib : Library}

section

variable (lib) (frame : List Symbol) (filters : List Expr) (row : Tuple)

/-- The filters let the row pass. -/
def Passes : Prop :=
  ∀ f ∈ filters, f.predIn lib (rowEnv frame row) = .ok true

/-- The filters, one after the other, decide on the row. -/
def Decides : Prop :=
  ∃ b, Expr.filtersWith lib (Expr.readNamed (rowEnv frame row)) filters = .ok b

end

namespace RelAlgebra

section

variable (lib) (rd : PlanReads)

/-- The rows of a tree. -/
def Rows : RelAlgebra → Tuple → Prop
  | .fixed _ data _, row => row ∈ data
  | .scan source bindings filters, row => rd.Scans source row ∧ Passes lib bindings filters row
  | .derived source _, row => row ∈ rd.derivedRows source
  | .join left right joiner toEliminate, row =>
    ∃ l r, left.Rows l ∧ right.Rows r ∧
      Agree (comparedKeys right joiner) left.bindingsAfterEliminate
        right.bindingsAfterEliminate l r ∧
      eliminateFromTuple toEliminate
        (left.bindingsAfterEliminate ++ right.bindingsAfterEliminate) (l ++ r) = row
  | .negJoin left right joiner toEliminate, row =>
    ∃ l, left.Rows l ∧
      (¬ ∃ r, rd.Totals right r ∧ Agree (joiner.leftKeys.zip joiner.rightKeys)
        left.bindingsAfterEliminate right.bindings l r) ∧
      eliminateFromTuple toEliminate left.bindingsAfterEliminate l = row
  | .reorder relation newOrder, row =>
    ∃ l, relation.Rows l ∧
      List.Forall₂ (fun s v => rowEnv relation.bindingsAfterEliminate l s = some v) newOrder row
  | .filter parent filters toEliminate, row =>
    ∃ l, parent.Rows l ∧ Passes lib parent.bindingsAfterEliminate filters l ∧
      eliminateFromTuple toEliminate parent.bindingsAfterEliminate l = row
  | .unification parent binding expr kind toEliminate, row =>
    ∃ l val items v, parent.Rows l ∧
      expr.evalIn lib (rowEnv parent.bindingsAfterEliminate l) = .ok val ∧
      kind.items val = some items ∧ v ∈ items ∧
      eliminateFromTuple toEliminate (parent.bindingsAfterEliminate ++ [binding]) (l ++ [v]) = row
  | .search parent atom, row =>
    ∃ l query hits hit, parent.Rows l ∧
      atom.query.evalIn lib (rowEnv parent.bindingsAfterEliminate l) = .ok query ∧
      rd.search atom.ownBindings query = .ok hits ∧ hit ∈ hits ∧ l ++ hit = row

/-- The tree runs to its end: no expression fails on a row it is evaluated on. -/
def Completes : RelAlgebra → Prop
  | .fixed _ _ _ => True
  | .scan source bindings filters =>
    (∃ rows, rd.scanRows source = .ok rows) ∧
      ∀ row, rd.Scans source row → Decides lib bindings filters row
  | .derived _ _ => True
  | .join left right joiner _ =>
    if left.isUnit then right.Completes
    else left.Completes ∧
      match probedScan right joiner with
      | some (source, bindings, filters) =>
        (∃ rows, rd.scanRows source = .ok rows) ∧
          ∀ l r, left.Rows lib rd l → rd.Scans source r →
            Agree (comparedKeys right joiner) left.bindingsAfterEliminate bindings l r →
            InScan (source.boundColumns bindings joiner.rightKeys.length) filters
              joiner.rightKeys.length r →
            Decides lib bindings filters r
      | none => right.Completes
  | .negJoin left right _ _ => left.Completes ∧ rd.Readable right
  | .reorder relation _ => relation.Completes
  | .filter parent filters _ =>
    parent.Completes ∧
      ∀ l, parent.Rows lib rd l → Decides lib parent.bindingsAfterEliminate filters l
  | .unification parent _ expr kind _ =>
    parent.Completes ∧ ∀ l, parent.Rows lib rd l → ∃ val items,
      expr.evalIn lib (rowEnv parent.bindingsAfterEliminate l) = .ok val ∧
      kind.items val = some items
  | .search parent atom =>
    parent.Completes ∧ ∀ l, parent.Rows lib rd l → ∃ query hits,
      atom.query.evalIn lib (rowEnv parent.bindingsAfterEliminate l) = .ok query ∧
      rd.search atom.ownBindings query = .ok hits

end

/-- Trees as the constructors are meant to build them, over what a plan reads: rows are as wide as
their columns, columns of one scan and of the two sides of a join have different names, join keys
and the variables of expressions are columns of the side they read. -/
inductive WellFormed (rd : PlanReads) : RelAlgebra → Prop
  | fixed {bindings data toEliminate} (width : ∀ row ∈ data, row.length = bindings.length)
      (kept : ∀ b ∈ bindings, b ∉ toEliminate) : WellFormed rd (.fixed bindings data toEliminate)
  | scan {source bindings filters} (nodup : bindings.Nodup)
      (width : ∀ row, rd.Scans source row → row.length = bindings.length)
      (reads : ∀ f ∈ filters, f.ReadsOnly bindings) :
      WellFormed rd (.scan source bindings filters)
  | derived {source bindings}
      (width : ∀ row ∈ rd.derivedRows source, row.length = bindings.length) :
      WellFormed rd (.derived source bindings)
  | join {left right joiner toEliminate} (left_wf : WellFormed rd left)
      (right_wf : WellFormed rd right)
      (pairs : joiner.leftKeys.length = joiner.rightKeys.length)
      (left_keys : joiner.leftKeys ⊆ left.bindingsAfterEliminate)
      (right_keys : joiner.rightKeys ⊆ right.bindingsAfterEliminate)
      (nodup : joiner.rightKeys.Nodup)
      (disjoint : left.bindingsBeforeEliminate.Disjoint right.bindingsBeforeEliminate) :
      WellFormed rd (.join left right joiner toEliminate)
  | negJoin {left right joiner toEliminate} (left_wf : WellFormed rd left)
      (right_width : ∀ row, rd.Totals right row → row.length = right.bindings.length)
      (right_nodup : right.bindings.Nodup)
      (pairs : joiner.leftKeys.length = joiner.rightKeys.length)
      (left_keys : joiner.leftKeys ⊆ left.bindingsAfterEliminate)
      (right_keys : joiner.rightKeys ⊆ right.bindings) :
      WellFormed rd (.negJoin left right joiner toEliminate)
  | reorder {relation newOrder} (relation_wf : WellFormed rd relation)
      (columns : newOrder ⊆ relation.bindingsAfterEliminate) :
      WellFormed rd (.reorder relation newOrder)
  | filter {parent filters toEliminate} (parent_wf : WellFormed rd parent)
      (reads : ∀ f ∈ filters, f.ReadsOnly parent.bindingsAfterEliminate) :
      WellFormed rd (.filter parent filters toEliminate)
  | unification {parent binding expr kind toEliminate} (parent_wf : WellFormed rd parent)
      (reads : expr.ReadsOnly parent.bindingsAfterEliminate) :
      WellFormed rd (.unification parent binding expr kind toEliminate)
  | search {parent atom} (parent_wf : WellFormed rd parent)
      (reads : atom.query.ReadsOnly parent.bindingsAfterEliminate)
      (filter_reads : ∀ f ∈ atom.filter,
        f.ReadsOnly (parent.bindingsAfterEliminate ++ atom.ownBindings))
      (width : ∀ query hits, rd.search atom.ownBindings query = .ok hits →
        ∀ hit ∈ hits, hit.length = atom.ownBindings.length) :
      WellFormed rd (.search parent atom)

end RelAlgebra

/-! ## Columns that are dropped -/

section

variable {toEliminate names : List Symbol} {row : Tuple} {b : Symbol}

lemma shed_cons_of_mem (h : b ∈ toEliminate) :
    shed toEliminate (b :: names) = shed toEliminate names :=
  filter_cons_of_neg (by simpa using h)

lemma shed_cons_of_notMem (h : b ∉ toEliminate) :
    shed toEliminate (b :: names) = b :: shed toEliminate names :=
  filter_cons_of_pos (by simpa using h)

lemma mem_shed {s : Symbol} : s ∈ shed toEliminate names ↔ s ∈ names ∧ s ∉ toEliminate := by
  simp [shed]

lemma shed_subset : shed toEliminate names ⊆ names := filter_subset_self _

@[simp] lemma shed_nil : shed [] names = names := by
  simp [shed]

lemma length_eliminateFromTuple (h : row.length = names.length) :
    (eliminateFromTuple toEliminate names row).length = (shed toEliminate names).length := by
  induction names generalizing row with
  | nil =>
    obtain rfl := length_eq_zero_iff.mp h
    rfl
  | cons b names ih =>
    cases row with
    | nil => cases h
    | cons v row =>
      have ih := ih (Nat.succ.inj h)
      by_cases hb : b ∈ toEliminate
      · rw [eliminateFromTuple, if_pos hb, shed_cons_of_mem hb, ih]
      · rw [eliminateFromTuple, if_neg hb, shed_cons_of_notMem hb, length_cons, length_cons, ih]

@[simp] lemma eliminateFromTuple_nil (names : List Symbol) (row : Tuple)
    (h : row.length = names.length) : eliminateFromTuple [] names row = row := by
  induction names generalizing row with
  | nil => simp [eliminateFromTuple]
  | cons b names ih =>
    cases row with
    | nil => cases h
    | cons v row => simp [eliminateFromTuple, ih row (Nat.succ.inj h)]

lemma rowEnv_eliminateFromTuple (h : row.length = names.length) {s : Symbol}
    (hs : s ∉ toEliminate) :
    rowEnv (shed toEliminate names) (eliminateFromTuple toEliminate names row) s =
      rowEnv names row s := by
  induction names generalizing row with
  | nil => simp [shed]
  | cons b names ih =>
    cases row with
    | nil => cases h
    | cons v row =>
      have ih := ih (Nat.succ.inj h)
      by_cases hb : b ∈ toEliminate
      · have hne : b ≠ s := fun hbs => hs (hbs ▸ hb)
        rw [eliminateFromTuple, if_pos hb, shed_cons_of_mem hb, ih, rowEnv, if_neg hne,
          Option.or_none]
      · rw [eliminateFromTuple, if_neg hb, shed_cons_of_notMem hb, rowEnv, rowEnv, ih]

end

/-! ## Widths -/

namespace RelAlgebra

variable {rd : PlanReads}

lemma Rows.length_eq {t : RelAlgebra} (wf : t.WellFormed rd) {row : Tuple} (h : t.Rows lib rd row) :
    row.length = t.bindingsAfterEliminate.length := by
  induction wf generalizing row with
  | @fixed bindings data toEliminate width kept =>
    have hkept : shed toEliminate bindings = bindings :=
      filter_eq_self.mpr fun b hb => by simpa using kept b hb
    rw [width row h, bindingsAfterEliminate, eliminateSet, bindingsBeforeEliminate, hkept]
  | scan nodup width reads =>
    rw [width row h.1, bindingsAfterEliminate, eliminateSet, bindingsBeforeEliminate, shed_nil]
  | derived width =>
    rw [width row h, bindingsAfterEliminate, eliminateSet, bindingsBeforeEliminate, shed_nil]
  | join _ _ _ _ _ _ _ ihl ihr =>
    obtain ⟨l, r, hl, hr, -, rfl⟩ := h
    refine length_eliminateFromTuple ?_
    rw [length_append, length_append, ihl hl, ihr hr]
  | negJoin _ _ _ _ _ _ ih | filter _ _ ih =>
    obtain ⟨l, hl, -, rfl⟩ := h
    exact length_eliminateFromTuple (ih hl)
  | reorder _ _ ih =>
    obtain ⟨l, -, hrow⟩ := h
    rw [bindingsAfterEliminate, eliminateSet, bindingsBeforeEliminate, shed_nil, hrow.length_eq]
  | unification _ _ ih =>
    obtain ⟨l, val, items, v, hl, -, -, -, rfl⟩ := h
    refine length_eliminateFromTuple ?_
    rw [length_append, length_append, ih hl]
    rfl
  | search _ _ _ width ih =>
    obtain ⟨l, query, hits, hit, hl, -, hhits, hhit, rfl⟩ := h
    rw [bindingsAfterEliminate, eliminateSet, bindingsBeforeEliminate, shed_nil,
      length_append, length_append, ih hl, width query hits hhits hit hhit]
    rfl

end RelAlgebra

end Kyzo
