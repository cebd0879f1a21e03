import Kyzo.Lib.RankSelect

/-!
# Stacks of sorted levels, newest first

A map may be kept as a stack of sorted lists of entries, oldest first, in which the newest level
that holds a key speaks for it.  Merging two neighbouring levels and merging all of them on the fly
both answer every key as the stack does.
-/

namespace Kyzo

open List Std LawfulEqOrd OrientedCmp TransCmp

variable {κ ν : Type*} [Ord κ] (l : List (κ × ν))

/-- The keys of a level ascend. -/
def KeysAscend : Prop := l.Pairwise fun a b => compare a.1 b.1 = .lt

/-- What a level holds for a key. -/
def lookupKey (k : κ) : Option ν :=
  (l.find? fun e => compare e.1 k = .eq).map Prod.snd

/-- What the newest level holding a key holds for it. -/
def newest (levels : List (List (κ × ν))) (k : κ) : Option ν :=
  levels.reverse.findSome? fun l => lookupKey l k

@[simp] lemma lookupKey_nil (k : κ) : lookupKey ([] : List (κ × ν)) k = none := rfl

@[simp] lemma newest_nil (k : κ) : newest ([] : List (List (κ × ν))) k = none := rfl

lemma newest_append (levels levels' : List (List (κ × ν))) (k : κ) :
    newest (levels ++ levels') k = (newest levels' k).or (newest levels k) := by
  rw [newest, reverse_append, findSome?_append]
  rfl

@[simp] lemma newest_singleton (k : κ) : newest [l] k = lookupKey l k := by
  simp [newest]

lemma newest_cons (levels : List (List (κ × ν))) (k : κ) :
    newest (l :: levels) k = (newest levels k).or (lookupKey l k) := by
  rw [← singleton_append, newest_append, newest_singleton]

/-- A search of the levels from the newest, if each level finds what it holds. -/
lemma findSome?_eq_newest {β : Type*} {levels : List β} {rows : β → List (κ × ν)}
    {find : β → Option ν} {k : κ} (h : ∀ l ∈ levels, find l = lookupKey (rows l) k) :
    levels.reverse.findSome? find = newest (levels.map rows) k := by
  induction levels with
  | nil => rfl
  | cons l levels ih =>
    obtain ⟨hl, hrest⟩ := forall_mem_cons.mp h
    rw [reverse_cons, findSome?_append, ih hrest, map_cons, newest_cons, ← hl]
    simp

section Lawful

variable [TransOrd κ] [LawfulEqOrd κ]

omit [TransOrd κ] in
lemma lookupKey_cons_self (k : κ) (v : ν) (l : List (κ × ν)) :
    lookupKey ((k, v) :: l) k = some v := by
  simp [lookupKey, ReflCmp.compare_self]

omit [TransOrd κ] in
lemma lookupKey_cons_ne {k k' : κ} (h : k' ≠ k) (v : ν) (l : List (κ × ν)) :
    lookupKey ((k', v) :: l) k = lookupKey l k := by
  have hne : compare k' k ≠ .eq := fun heq => h (eq_of_compare heq)
  simp [lookupKey, hne]

variable {l} {k : κ}

omit [TransOrd κ] in
lemma lookupKey_eq_none : lookupKey l k = none ↔ ∀ e ∈ l, e.1 ≠ k := by
  simp [lookupKey, Option.map_eq_none_iff, find?_eq_none, decide_eq_true_eq]

omit [TransOrd κ] in
lemma lookupKey_eq_some (h : KeysAscend l) {v : ν} : lookupKey l k = some v ↔ (k, v) ∈ l := by
  induction l with
  | nil => simp
  | cons e l ih =>
    obtain ⟨hhead, htail⟩ := pairwise_cons.mp h
    obtain ⟨k', v'⟩ := e
    by_cases hk : k' = k
    · subst hk
      rw [lookupKey_cons_self, mem_cons]
      constructor
      · rintro hv
        cases hv
        exact .inl rfl
      · rintro (heq | hmem)
        · cases heq
          rfl
        · have hlt := hhead _ hmem
          simp at hlt
    · rw [lookupKey_cons_ne hk, ih htail, mem_cons]
      have hne : (k, v) ≠ (k', v') := fun heq => hk (congrArg Prod.fst heq).symm
      simp [hne]

omit [LawfulEqOrd κ] in
lemma nodup_keys (h : KeysAscend l) : (l.map Prod.fst).Nodup := by
  refine pairwise_map.mpr (h.imp fun {a b} hlt heq => ?_)
  simp [heq] at hlt

omit [LawfulEqOrd κ] in
lemma nodup_of_keysAscend (h : KeysAscend l) : l.Nodup := (nodup_keys h).of_map _

lemma eq_of_lookupKey {l l' : List (κ × ν)} (h : KeysAscend l) (h' : KeysAscend l')
    (heq : ∀ k, lookupKey l k = lookupKey l' k) : l = l' := by
  have hmem : ∀ e, e ∈ l ↔ e ∈ l' := by
    rintro ⟨k, v⟩
    rw [← lookupKey_eq_some h, ← lookupKey_eq_some h', heq]
  have hperm := (perm_ext_iff_of_nodup (nodup_of_keysAscend h) (nodup_of_keysAscend h')).mpr hmem
  refine hperm.eq_of_pairwise ?_ h h'
  intro a b _ _ hab hba
  exact absurd hba (not_lt_of_lt hab)

omit [TransOrd κ] in
lemma lookupKey_filter (l : List (κ × ν)) (p : κ → Bool) (k : κ) :
    lookupKey (l.filter fun e => p e.1) k = if p k then lookupKey l k else none := by
  induction l with
  | nil => simp
  | cons e l ih =>
    obtain ⟨k', v⟩ := e
    by_cases hk : k' = k
    · subst hk
      by_cases hp : p k'
      · simp [hp, lookupKey_cons_self]
      · simp [hp, ih]
    · by_cases hp : p k'
      · simp [hp, lookupKey_cons_ne hk, ih]
      · simp [hp, lookupKey_cons_ne hk, ih]

section FilterMap

variable {μ : Type*} (h : KeysAscend l) (g : κ → ν → Option μ)
include h

omit [TransOrd κ] [LawfulEqOrd κ] in
lemma KeysAscend.filterMap : KeysAscend (l.filterMap fun e => (g e.1 e.2).map (e.1, ·)) := by
  refine pairwise_filterMap.mpr (h.imp ?_)
  intro a b hab a' ha' b' hb'
  obtain ⟨v, -, rfl⟩ := Option.map_eq_some_iff.mp ha'
  obtain ⟨w, -, rfl⟩ := Option.map_eq_some_iff.mp hb'
  exact hab

omit [TransOrd κ] in
lemma lookupKey_filterMap (k : κ) :
    lookupKey (l.filterMap fun e => (g e.1 e.2).map (e.1, ·)) k = (lookupKey l k).bind (g k) := by
  apply Option.ext
  intro w
  rw [lookupKey_eq_some (h.filterMap g), mem_filterMap, Option.bind_eq_some_iff]
  constructor
  · rintro ⟨⟨k', v⟩, hmem, heq⟩
    obtain ⟨w', hw, heq'⟩ := Option.map_eq_some_iff.mp heq
    cases heq'
    exact ⟨v, (lookupKey_eq_some h).mpr hmem, hw⟩
  · rintro ⟨v, hlook, hw⟩
    exact ⟨(k, v), (lookupKey_eq_some h).mp hlook, by simp [hw]⟩

end FilterMap

variable (levels : List (List (κ × ν)))

omit [TransOrd κ] in
lemma newest_filter (p : κ → Bool) (k : κ) :
    newest (levels.map fun l => l.filter fun e => p e.1) k =
      if p k then newest levels k else none := by
  induction levels with
  | nil => simp
  | cons l levels ih =>
    rw [map_cons, newest_cons, newest_cons, ih, lookupKey_filter]
    split <;> rfl

/-! ## Merging two neighbours -/

/-- Merge an older and a newer level: where both hold a key, the newer entry stays, settled. -/
def mergeNewest (settle : ν → ν) : List (κ × ν) → List (κ × ν) → List (κ × ν)
  | [], newer => newer
  | older, [] => older
  | (ka, va) :: older, (kb, vb) :: newer =>
    match compare ka kb with
    | .lt => (ka, va) :: mergeNewest settle older ((kb, vb) :: newer)
    | .gt => (kb, vb) :: mergeNewest settle ((ka, va) :: older) newer
    | .eq => (kb, settle vb) :: mergeNewest settle older newer
termination_by older newer => older.length + newer.length

omit [TransOrd κ] [LawfulEqOrd κ] in
@[simp] lemma mergeNewest_nil_right (settle : ν → ν) (older : List (κ × ν)) :
    mergeNewest settle older [] = older := by
  cases older <;> simp [mergeNewest]

variable {older newer : List (κ × ν)} {settle : ν → ν}

omit [TransOrd κ] in
lemma map_fst_mergeNewest (settle : ν → ν) : (mergeNewest settle older newer).map Prod.fst =
    mergeDedup compare (older.map Prod.fst) (newer.map Prod.fst) := by
  induction older, newer using mergeNewest.induct with
  | case1 newer => simp [mergeNewest, mergeDedup]
  | case2 older => cases older <;> simp [mergeDedup]
  | case3 ka va older kb vb newer hc ih | case4 ka va older kb vb newer hc ih =>
    simpa [mergeNewest, mergeDedup, hc] using ih
  | case5 ka va older kb vb newer hc ih =>
    simpa [mergeNewest, mergeDedup, hc] using ⟨(eq_of_compare hc).symm, ih⟩

lemma keysAscend_mergeNewest (settle : ν → ν) (ha : KeysAscend older) (hb : KeysAscend newer) :
    KeysAscend (mergeNewest settle older newer) := by
  have hkeys : Ascending compare ((mergeNewest settle older newer).map Prod.fst) := by
    rw [map_fst_mergeNewest]
    exact ascending_mergeDedup (pairwise_map.mpr ha) (pairwise_map.mpr hb)
  exact pairwise_map.mp hkeys

omit [TransOrd κ] in
lemma lookupKey_of_lt (h : ∀ e ∈ l, compare k e.1 = .lt) : lookupKey l k = none := by
  refine lookupKey_eq_none.mpr fun e he heq => ?_
  have hlt := h e he
  simp [heq, ReflCmp.compare_self] at hlt

/-- **Merging neighbours answers as the two did**, up to settling. -/
theorem lookupKey_mergeNewest {μ : Type*} {f : ν → μ}
    (hf : ∀ v, f (settle v) = f v) (ha : KeysAscend older) (hb : KeysAscend newer) (k : κ) :
    (lookupKey (mergeNewest settle older newer) k).map f =
      ((lookupKey newer k).or (lookupKey older k)).map f := by
  induction older, newer using mergeNewest.induct with
  | case1 newer => rw [mergeNewest, lookupKey_nil, Option.or_none]
  | case2 older => rw [mergeNewest_nil_right, lookupKey_nil, Option.none_or]
  | case3 ka va older kb vb newer hc ih =>
    obtain ⟨hha, hta⟩ := pairwise_cons.mp ha
    simp only [mergeNewest, hc]
    by_cases hk : ka = k
    · -- The older key lies below every newer key.
      subst hk
      have hnone : lookupKey ((kb, vb) :: newer) ka = none := by
        refine lookupKey_of_lt fun e he => ?_
        rcases mem_cons.mp he with rfl | he
        · exact hc
        · exact lt_trans hc ((pairwise_cons.mp hb).1 e he)
      rw [lookupKey_cons_self, lookupKey_cons_self, hnone, Option.none_or]
    · rw [lookupKey_cons_ne hk, lookupKey_cons_ne hk, ih hta hb]
  | case4 ka va older kb vb newer hc ih =>
    obtain ⟨hhb, htb⟩ := pairwise_cons.mp hb
    simp only [mergeNewest, hc]
    by_cases hk : kb = k
    · subst hk
      rw [lookupKey_cons_self, lookupKey_cons_self, Option.some_or]
    · rw [lookupKey_cons_ne hk, lookupKey_cons_ne hk, ih ha htb]
  | case5 ka va older kb vb newer hc ih =>
    obtain ⟨hha, hta⟩ := pairwise_cons.mp ha
    obtain ⟨hhb, htb⟩ := pairwise_cons.mp hb
    have heq : ka = kb := eq_of_compare hc
    subst heq
    simp only [mergeNewest, hc]
    by_cases hk : ka = k
    · subst hk
      rw [lookupKey_cons_self, lookupKey_cons_self, Option.some_or, Option.map_some,
        Option.map_some, hf]
    · rw [lookupKey_cons_ne hk, lookupKey_cons_ne hk, lookupKey_cons_ne hk, ih hta htb]

/-! ## Merging all levels on the fly -/

/-- The scan for the next cursor: the least next key, and of equal keys the later cursor's. -/
def pickBest (best : Option (κ × ℕ)) : List (κ × ν) × ℕ → Option (κ × ℕ)
  | ([], _) => best
  | ((t, _) :: _, ci) =>
    match best with
    | none => some (t, ci)
    | some (bt, bci) =>
      if compare t bt = .lt ∨ compare t bt = .eq ∧ bci < ci then some (t, ci) else some (bt, bci)

variable (cursors : List (List (κ × ν)))

/-- The winning key and the cursor that speaks for it. -/
def bestCursor : Option (κ × ℕ) :=
  cursors.zipIdx.foldl pickBest none

/-- Move every cursor past a key. -/
def advance (key : κ) (cursors : List (List (κ × ν))) : List (List (κ × ν)) :=
  cursors.map fun c => c.dropWhile fun e => compare e.1 key = .eq

/-- The sequence a merge over cursors yields; every step moves a cursor, so the number of entries
bounds it. -/
def kmerge : ℕ → List (List (κ × ν)) → List (κ × ν)
  | 0, _ => []
  | bound + 1, cursors =>
    match bestCursor cursors with
    | none => []
    | some (key, ci) =>
      match (cursors.getD ci []).head? with
      | none => []
      | some entry => entry :: kmerge bound (advance key cursors)

/-- All entries of a stack, the newest of each key. -/
def mergeLevels : List (κ × ν) :=
  kmerge (levels.map length).sum levels

/-- The winner of the scan: its key is least, and the cursors after it are past it. -/
structure Wins (cursors : List (List (κ × ν))) (k : κ) (ci : ℕ) (v : ν)
    (pre post : List (List (κ × ν))) (rest : List (κ × ν)) : Prop where
  /-- Where the winning cursor stands. -/
  split : cursors = pre ++ ((k, v) :: rest) :: post
  index : pre.length = ci
  /-- No cursor is before its key. -/
  least : ∀ c ∈ cursors, ∀ e, c.head? = some e → compare e.1 k ≠ .lt
  /-- The later cursors are past its key. -/
  latest : ∀ c ∈ post, ∀ e, c.head? = some e → compare k e.1 = .lt

omit [TransOrd κ] [LawfulEqOrd κ] in
lemma bestCursor_concat (c : List (κ × ν)) :
    bestCursor (cursors ++ [c]) = pickBest (bestCursor cursors) (c, cursors.length) := by
  simp [bestCursor, zipIdx_append]

omit [LawfulEqOrd κ] in
lemma bestCursor_spec : (bestCursor cursors = none ∧ ∀ c ∈ cursors, c = []) ∨
      ∃ k ci v pre post rest, bestCursor cursors = some (k, ci) ∧
        Wins cursors k ci v pre post rest := by
  induction cursors using reverseRecOn with
  | nil => exact .inl ⟨rfl, by simp⟩
  | append_singleton cursors c ih =>
    rw [bestCursor_concat]
    rcases c with _ | ⟨⟨t, w⟩, c⟩
    · -- An exhausted cursor changes nothing.
      rcases ih with ⟨hbest, hall⟩ | ⟨k, ci, v, pre, post, rest, hbest, hwins⟩
      · exact .inl ⟨by rw [pickBest, hbest], forall_mem_append.mpr ⟨hall, by simp⟩⟩
      · exact .inr ⟨k, ci, v, pre, post ++ [[]], rest, by rw [pickBest, hbest],
          ⟨by rw [hwins.split]; simp, hwins.index, forall_mem_append.mpr ⟨hwins.least, by simp⟩,
            forall_mem_append.mpr ⟨hwins.latest, by simp⟩⟩⟩
    · rcases ih with ⟨hbest, hall⟩ | ⟨k, ci, v, pre, post, rest, hbest, hwins⟩
      · refine .inr ⟨t, cursors.length, w, cursors, [], c, by rw [hbest]; rfl,
          ⟨rfl, rfl, forall_mem_append.mpr ⟨fun c' hc' e he => ?_, by simp⟩, by simp⟩⟩
        rw [hall c' hc'] at he
        cases he
      · have hci : ci < cursors.length := by
          rw [hwins.split, ← hwins.index, length_append, length_cons]
          omega
        by_cases hle : (compare t k).isLE = true
        · -- The new cursor takes over.
          have hcond : compare t k = .lt ∨ compare t k = .eq ∧ ci < cursors.length :=
            (Ordering.isLE_iff_eq_lt_or_eq_eq.mp hle).imp_right (⟨·, hci⟩)
          refine .inr ⟨t, cursors.length, w, cursors, [], c, by rw [hbest, pickBest, if_pos hcond],
            ⟨rfl, rfl, forall_mem_append.mpr ⟨fun c' hc' e he hlt => ?_, by simp⟩, by simp⟩⟩
          exact hwins.least c' hc' e he (lt_of_lt_of_isLE hlt hle)
        · -- The winner so far stays.
          have hgt : compare k t = .lt := gt_iff_lt.mp (by simpa using hle)
          have hcond : ¬ (compare t k = .lt ∨ compare t k = .eq ∧ ci < cursors.length) := by
            rintro (hc | ⟨hc, -⟩) <;> simp [hc] at hle
          exact .inr ⟨k, ci, v, pre, post ++ [(t, w) :: c], rest,
            by rw [hbest, pickBest, if_neg hcond], ⟨by rw [hwins.split]; simp, hwins.index,
              forall_mem_append.mpr ⟨hwins.least, by simp [not_lt_of_lt hgt]⟩,
              forall_mem_append.mpr ⟨hwins.latest, by simp [hgt]⟩⟩⟩

section

variable {c : List (κ × ν)} (hc : KeysAscend c) (h : ∀ e, c.head? = some e → compare e.1 k ≠ .lt)
include hc h

omit [LawfulEqOrd κ] in
lemma le_of_head : ∀ e ∈ c, compare e.1 k ≠ .lt := by
  rcases c with _ | ⟨e₀, c⟩
  · simp
  intro e he hlt
  have hhead := h e₀ rfl
  rcases mem_cons.mp he with rfl | he
  · exact hhead hlt
  · exact hhead (lt_trans ((pairwise_cons.mp hc).1 e he) hlt)

omit [TransOrd κ] in
lemma dropWhile_eq_filter : (c.dropWhile fun e => compare e.1 k = .eq) = c.filter fun e =>
      !decide (compare e.1 k = .eq) := by
  rcases c with _ | ⟨e₀, c⟩
  · rfl
  obtain ⟨hhead, htail⟩ := pairwise_cons.mp hc
  have hkeep : ∀ e ∈ c, compare e₀.1 k ≠ .lt → compare e.1 k ≠ .eq := by
    intro e he hne heq
    have hlt := hhead e he
    rw [eq_of_compare heq] at hlt
    exact hne hlt
  have hall : (c.filter fun e => !decide (compare e.1 k = .eq)) = c := by
    refine filter_eq_self.mpr fun e he => ?_
    simp [hkeep e he (h e₀ rfl)]
  by_cases heq : compare e₀.1 k = .eq
  · rw [dropWhile_cons_of_pos (by simpa using heq), filter_cons_of_neg (by simp [heq]), hall]
    rcases c with _ | ⟨e₁, c⟩
    · rfl
    · exact dropWhile_cons_of_neg (by simp [hkeep e₁ (.head _) (h e₀ rfl)])
  · rw [dropWhile_cons_of_neg (by simpa using heq), filter_cons_of_pos (by simp [heq]), hall]

end

variable {levels}

omit [TransOrd κ] in
lemma exists_mem_of_newest (h : ∀ l ∈ levels, KeysAscend l)
    {v : ν} (hv : newest levels k = some v) : ∃ l ∈ levels, (k, v) ∈ l := by
  obtain ⟨l, hl, hlook⟩ := exists_of_findSome?_eq_some hv
  exact ⟨l, mem_reverse.mp hl, (lookupKey_eq_some (h l (mem_reverse.mp hl))).mp hlook⟩

variable {cursors}

lemma newest_of_wins {ci : ℕ} {v : ν} {pre post : List (List (κ × ν))}
    {rest : List (κ × ν)} (h : Wins cursors k ci v pre post rest)
    (hasc : ∀ c ∈ cursors, KeysAscend c) : newest cursors k = some v := by
  have hpost : newest post k = none := by
    rcases hn : newest post k with _ | w
    · rfl
    have hascPost : ∀ c ∈ post, KeysAscend c := fun c hc =>
      hasc c (by rw [h.split]; exact mem_append_right _ (.tail _ hc))
    obtain ⟨c, hc, hmem⟩ := exists_mem_of_newest hascPost hn
    rcases c with _ | ⟨e₀, c⟩
    · cases hmem
    have hlt : compare k e₀.1 = .lt := h.latest _ hc e₀ rfl
    rcases mem_cons.mp hmem with rfl | hmem
    · simp at hlt
    · have hlt' := lt_trans hlt
        ((pairwise_cons.mp (hascPost _ hc)).1 _ hmem)
      simp at hlt'
  rw [h.split, newest_append, newest_cons, hpost, lookupKey_cons_self]
  rfl

/-- **Merging all levels on the fly** yields the entries of the stack, in ascending order of their
keys. -/
theorem kmerge_spec (bound : ℕ) (hasc : ∀ c ∈ cursors, KeysAscend c)
    (hbound : (cursors.map length).sum ≤ bound) : KeysAscend (kmerge bound cursors) ∧
      ∀ k, lookupKey (kmerge bound cursors) k = newest cursors k := by
  have hempty : ∀ {cursors : List (List (κ × ν))}, (∀ c ∈ cursors, c = []) → ∀ k,
      newest cursors k = none := by
    intro cursors hall k
    rw [newest, findSome?_eq_none_iff]
    intro c hc
    rw [hall c (mem_reverse.mp hc), lookupKey_nil]
  induction bound generalizing cursors with
  | zero =>
    have hall : ∀ c ∈ cursors, c = [] := by
      intro c hc
      have hle := single_le_sum (by simp) c.length
        (mem_map_of_mem hc)
      exact eq_nil_of_length_eq_zero (by omega)
    exact ⟨List.Pairwise.nil, fun k => by rw [hempty hall]; rfl⟩
  | succ bound ih =>
    rcases bestCursor_spec cursors with ⟨hbest, hall⟩ | ⟨k, ci, v, pre, post, rest, hbest, hwins⟩
    · rw [kmerge, hbest]
      exact ⟨List.Pairwise.nil, fun k => by rw [hempty hall]; rfl⟩
    have hhead : (cursors.getD ci []).head? = some (k, v) := by
      rw [hwins.split, ← hwins.index]
      simp
    rw [kmerge, hbest]
    simp only [hhead]
    have hadv : advance k cursors =
        cursors.map fun c => c.filter fun e => !decide (compare e.1 k = .eq) :=
      map_congr_left fun c hc => dropWhile_eq_filter (hasc c hc) (hwins.least c hc)
    have hascAdv : ∀ c ∈ advance k cursors, KeysAscend c := by
      rw [hadv, forall_mem_map]
      exact fun c hc => (hasc c hc).filter _
    have hsum : ((advance k cursors).map length).sum < (cursors.map length).sum := by
      rw [advance, map_map]
      refine sum_lt_sum _ _ (fun c _ => (dropWhile_sublist _).length_le)
        ⟨(k, v) :: rest, by rw [hwins.split]; simp, ?_⟩
      rw [Function.comp, dropWhile_cons_of_pos (by simp)]
      exact Nat.lt_succ_of_le (dropWhile_sublist _).length_le
    obtain ⟨hkeys, hlook⟩ := ih hascAdv (by omega)
    have hnewest : ∀ k', newest (advance k cursors) k' =
        if !decide (compare k' k = .eq) then newest cursors k' else none := by
      intro k'
      rw [hadv]
      exact newest_filter cursors (fun k' => !decide (compare k' k = .eq)) k'
    refine ⟨pairwise_cons.mpr ⟨?_, hkeys⟩, ?_⟩
    · rintro ⟨k', v'⟩ hmem
      have hn := (lookupKey_eq_some hkeys).mpr hmem
      rw [hlook, hnewest] at hn
      split at hn
      · next hne =>
        obtain ⟨c, hc, hmem'⟩ := exists_mem_of_newest hasc hn
        have hge := le_of_head (hasc c hc) (hwins.least c hc) _ hmem'
        rcases hcmp : compare k' k
        · exact absurd hcmp hge
        · simp [hcmp] at hne
        · exact gt_iff_lt.mp hcmp
      · cases hn
    · intro k'
      by_cases hk : k = k'
      · subst hk
        rw [lookupKey_cons_self, newest_of_wins hwins hasc]
      · have hne : compare k' k ≠ .eq := fun heq => hk (eq_of_compare heq).symm
        rw [lookupKey_cons_ne hk, hlook, hnewest]
        simp [hne]

lemma keysAscend_mergeLevels (h : ∀ l ∈ levels, KeysAscend l) : KeysAscend (mergeLevels levels) :=
  (kmerge_spec _ h le_rfl).1

lemma lookupKey_mergeLevels (h : ∀ l ∈ levels, KeysAscend l)
    (k : κ) : lookupKey (mergeLevels levels) k = newest levels k :=
  (kmerge_spec _ h le_rfl).2 k

lemma mergeLevels_singleton (h : KeysAscend l) : mergeLevels [l] = l := by
  have hall : ∀ l' ∈ [l], KeysAscend l' := by simpa using h
  refine eq_of_lookupKey (keysAscend_mergeLevels hall) h ?_
  intro k
  rw [lookupKey_mergeLevels hall, newest_singleton]

lemma mergeLevels_filter (h : ∀ l ∈ levels, KeysAscend l) (p : κ → Bool) :
    mergeLevels (levels.map fun l => l.filter fun e => p e.1) =
      (mergeLevels levels).filter fun e => p e.1 := by
  have hall : ∀ l ∈ levels.map (fun l => l.filter fun e => p e.1), KeysAscend l :=
    forall_mem_map.mpr fun l hl => (h l hl).filter _
  refine eq_of_lookupKey (keysAscend_mergeLevels hall) ((keysAscend_mergeLevels h).filter _) ?_
  intro k
  rw [lookupKey_mergeLevels hall, newest_filter, lookupKey_filter, lookupKey_mergeLevels h]

/-! ## Maps as levels -/

omit [LawfulEqOrd κ] in
lemma keysAscend_toList (m : TreeMap κ ν compare) : KeysAscend m.toList :=
  m.ordered_keys_toList

lemma lookupKey_toList (m : TreeMap κ ν compare) (k : κ) : lookupKey m.toList k = m[k]? := by
  apply Option.ext
  intro v
  rw [lookupKey_eq_some (keysAscend_toList m), TreeMap.mem_toList_iff_getElem?_eq_some]

/-! ## Surviving entries -/

/-- The entries of each level that no newer level shadows. -/
def survivors : List (List (κ × ν)) → List (List (κ × ν))
  | [] => []
  | l :: newer => (l.filter fun e => (newest newer e.1).isNone) :: survivors newer

omit [TransOrd κ] [LawfulEqOrd κ] in
lemma survivors_eq_zipIdx : survivors levels = levels.zipIdx.map fun e =>
      e.1.filter fun x => (newest (levels.drop (e.2 + 1)) x.1).isNone := by
  induction levels with
  | nil => rfl
  | cons l newer ih =>
    rw [survivors, ih, zipIdx_cons, map_cons, zipIdx_succ, map_map]
    rfl

omit [TransOrd κ] in
lemma mem_flatten_survivors (h : ∀ l ∈ levels, KeysAscend l)
    {e : κ × ν} : e ∈ (survivors levels).flatten ↔ newest levels e.1 = some e.2 := by
  induction levels with
  | nil => simp [survivors]
  | cons l newer ih =>
    obtain ⟨hl, hnewer⟩ := forall_mem_cons.mp h
    rw [survivors, flatten_cons, mem_append, mem_filter, ih hnewer, newest_cons,
      ← lookupKey_eq_some hl]
    rcases newest newer e.1 with _ | v
    · simp
    · simp

/-- **The survivors of all levels are the entries of the stack.** -/
theorem survivors_perm (h : ∀ l ∈ levels, KeysAscend l) :
    (survivors levels).flatten.Perm (mergeLevels levels) := by
  have hnodup : (survivors levels).flatten.Nodup := by
    induction levels with
    | nil => exact nodup_nil
    | cons l newer ih =>
      obtain ⟨hl, hnewer⟩ := forall_mem_cons.mp h
      refine nodup_append.mpr ⟨(nodup_of_keysAscend hl).filter _, ih hnewer, ?_⟩
      -- A survivor of a newer level shadows its key here.
      rintro e he e' he' rfl
      have hnone := (mem_filter.mp he).2
      rw [(mem_flatten_survivors hnewer).mp he'] at hnone
      cases hnone
  refine (perm_ext_iff_of_nodup hnodup (nodup_of_keysAscend (keysAscend_mergeLevels h))).mpr ?_
  rintro ⟨k, v⟩
  rw [mem_flatten_survivors h, ← lookupKey_eq_some (keysAscend_mergeLevels h),
    lookupKey_mergeLevels h]

/-! ## What a stack of levels holds -/

section Holds

variable {L μ : Type*} {rows : L → List (κ × ν)} {f : ν → μ}

omit [TransOrd κ] [LawfulEqOrd κ] in
lemma KeysAscend.map_snd (h : KeysAscend l) (f : ν → μ) :
    KeysAscend (l.map fun e => (e.1, f e.2)) :=
  pairwise_map.mpr h

omit [TransOrd κ] in
lemma lookupKey_map_snd (h : KeysAscend l) (f : ν → μ) (k : κ) :
    lookupKey (l.map fun e => (e.1, f e.2)) k = (lookupKey l k).map f := by
  have := lookupKey_filterMap h (fun _ v => some (f v)) k
  simpa [Function.comp_def, Option.map_eq_bind] using this

/-- Levels with the entries `rows` hold the map `total`, read off the newest entry of each key by
`f`. -/
structure Holds (rows : L → List (κ × ν)) (f : ν → μ) (levels : List L) (total : κ → Option μ) :
    Prop where
  ascend : ∀ l ∈ levels, KeysAscend (rows l)
  newest_eq : ∀ k, (newest (levels.map rows) k).map f = total k

/-- Everything a list of levels holds, ascending. -/
def contents (rows : L → List (κ × ν)) (f : ν → μ) (levels : List L) : List (κ × μ) :=
  (mergeLevels (levels.map rows)).map fun e => (e.1, f e.2)

namespace Holds

variable {levels : List L} {total : κ → Option μ}

omit [TransOrd κ] [LawfulEqOrd κ] in
lemma ascend_rows (h : Holds rows f levels total) : ∀ l ∈ levels.map rows, KeysAscend l :=
  forall_mem_map.mpr h.ascend

omit [TransOrd κ] [LawfulEqOrd κ] in
lemma concat (h : Holds rows f levels total) {l : L} (hasc : KeysAscend (rows l)) :
    Holds rows f (levels ++ [l]) fun k => ((lookupKey (rows l) k).map f).or (total k) where
  ascend := forall_mem_append.mpr ⟨h.ascend, by simpa using hasc⟩
  newest_eq k := by
    rw [map_append, newest_append, map_singleton, newest_singleton, Option.map_or, h.newest_eq]

omit [TransOrd κ] [LawfulEqOrd κ] in
lemma of_append {levels' : List L} (h : Holds rows f (levels ++ levels') total) :
    Holds rows f levels fun k => (newest (levels.map rows) k).map f where
  ascend l hl := h.ascend l (mem_append_left _ hl)
  newest_eq _ := rfl

omit [TransOrd κ] [LawfulEqOrd κ] in
lemma of_concat_nil {l : L} (h : Holds rows f (levels ++ [l]) total) (hnil : rows l = []) :
    Holds rows f levels total where
  ascend := h.of_append.ascend
  newest_eq k := by
    rw [← h.newest_eq k, map_append, newest_append, map_singleton, hnil,
      newest_singleton, lookupKey_nil, Option.none_or]

lemma merge (hf : ∀ v, f (settle v) = f v) {below : List L}
    {older newer merged : L} (h : Holds rows f (below ++ [older, newer]) total)
    (hrows : rows merged = mergeNewest settle (rows older) (rows newer)) :
    Holds rows f (below ++ [merged]) total := by
  have holder := h.ascend older (by simp)
  have hnewer := h.ascend newer (by simp)
  have hconcat := h.of_append.concat (hrows ▸ keysAscend_mergeNewest settle holder hnewer)
  refine ⟨hconcat.ascend, fun k => ?_⟩
  rw [hconcat.newest_eq k, ← h.newest_eq k, hrows, lookupKey_mergeNewest hf holder hnewer,
    map_append, newest_append, map_cons, map_singleton, newest_cons,
    newest_singleton, ← Option.map_or]

variable (h : Holds rows f levels total)
include h

lemma keysAscend_contents : KeysAscend (contents rows f levels) :=
  (keysAscend_mergeLevels h.ascend_rows).map_snd f

lemma lookupKey_contents (k : κ) : lookupKey (contents rows f levels) k = total k := by
  rw [contents, lookupKey_map_snd (keysAscend_mergeLevels h.ascend_rows),
    lookupKey_mergeLevels h.ascend_rows, h.newest_eq]

lemma mem_contents {v : μ} : (k, v) ∈ contents rows f levels ↔ total k = some v := by
  rw [← lookupKey_eq_some h.keysAscend_contents, h.lookupKey_contents]

omit [TransOrd κ] in
lemma exists_of_mem_rows {l : L} (hl : l ∈ levels)
    {e : κ × ν} (he : e ∈ rows l) : ∃ v, total e.1 = some v := by
  rcases hnew : newest (levels.map rows) e.1 with _ | v
  · rw [newest, findSome?_eq_none_iff] at hnew
    have hnone := hnew (rows l) (mem_reverse.mpr (mem_map_of_mem hl))
    exact absurd rfl (lookupKey_eq_none.mp hnone e he)
  · exact ⟨f v, by rw [← h.newest_eq, hnew]; rfl⟩

end Holds

end Holds

end Lawful

end Kyzo
