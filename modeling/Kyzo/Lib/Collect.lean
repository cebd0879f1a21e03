import Mathlib.Data.List.Induction
import Mathlib.Data.List.Nodup
import Std.Data.TreeMap.Lemmas

/-!
# Maps collected from lists

A list of rows inserted one by one into an ordered map, later rows over earlier ones of the same
key.
-/

namespace Kyzo

open List Std

variable {κ α : Type} [Ord κ]

/-- The rows of a list as a map. -/
def collect (rows : List (κ × α)) : TreeMap κ α :=
  rows.foldl (fun m row => m.insert row.1 row.2) ∅

lemma keys_nodup [TransOrd κ] (m : TreeMap κ α) : m.keys.Nodup := by
  refine m.distinct_keys.imp fun {a b} hne heq => hne ?_
  rw [heq]
  exact ReflCmp.compare_self

lemma collect_concat (rows : List (κ × α)) (row : κ × α) :
    collect (rows ++ [row]) = (collect rows).insert row.1 row.2 := by
  rw [collect, foldl_append]
  rfl

variable [TransOrd κ] [LawfulEqOrd κ] {rows : List (κ × α)} {k : κ} {v : α}

lemma mem_of_collect (h : (collect rows)[k]? = some v) : (k, v) ∈ rows := by
  induction rows using reverseRecOn with
  | nil => simp [collect] at h
  | append_singleton rows row ih =>
    rw [collect_concat, TreeMap.getElem?_insert] at h
    split_ifs at h with hk
    · rw [LawfulEqOrd.compare_eq_iff_eq] at hk
      cases h
      rw [← hk]
      exact mem_append_right _ (mem_singleton.mpr rfl)
    · exact mem_append_left _ (ih h)

lemma exists_collect (h : (k, v) ∈ rows) : ∃ w, (collect rows)[k]? = some w := by
  induction rows using reverseRecOn with
  | nil => exact absurd h not_mem_nil
  | append_singleton rows row ih =>
    rw [collect_concat, TreeMap.getElem?_insert]
    split_ifs with hk
    · exact ⟨row.2, rfl⟩
    · rcases mem_append.mp h with h | h
      · exact ih h
      · obtain rfl := mem_singleton.mp h
        exact absurd ReflCmp.compare_self hk

lemma collect_eq_some_iff (huniq : ∀ k v w, (k, v) ∈ rows → (k, w) ∈ rows → v = w) :
    (collect rows)[k]? = some v ↔ (k, v) ∈ rows := by
  refine ⟨mem_of_collect, fun h => ?_⟩
  obtain ⟨w, hw⟩ := exists_collect h
  rw [hw, huniq k v w h (mem_of_collect hw)]

omit [Ord κ] [TransOrd κ] [LawfulEqOrd κ] in
lemma eq_of_mem_of_nodup (hnodup : (rows.map Prod.fst).Nodup) {w : α} (hv : (k, v) ∈ rows)
    (hw : (k, w) ∈ rows) : v = w :=
  congrArg Prod.snd (inj_on_of_nodup_map hnodup hv hw rfl)

/-- The place of each entry among groups of them. -/
def positions (groups : List (List κ)) : TreeMap κ ℕ :=
  collect <| groups.zipIdx.flatMap fun (group, idx) => group.map fun x => (x, idx)

/-- An entry stands in the group at a place. -/
def InGroup {κ : Type} (groups : List (List κ)) (x : κ) (i : ℕ) : Prop :=
  ∃ group, groups[i]? = some group ∧ x ∈ group

lemma positions_eq_some_iff {groups : List (List κ)}
    (huniq : ∀ x i j, InGroup groups x i → InGroup groups x j → i = j) {x : κ} {i : ℕ} :
    (positions groups)[x]? = some i ↔ InGroup groups x i := by
  have hmem : ∀ x i, (x, i) ∈ groups.zipIdx.flatMap
      (fun (group, idx) => group.map fun x => (x, idx)) ↔ InGroup groups x i := by
    intro x i
    rw [mem_flatMap]
    constructor
    · rintro ⟨⟨group, idx⟩, hgroup, hx⟩
      obtain ⟨y, hy, heq⟩ := mem_map.mp hx
      cases heq
      exact ⟨group, mem_zipIdx_iff_getElem?.mp hgroup, hy⟩
    · rintro ⟨group, hgroup, hx⟩
      exact ⟨(group, i), mem_zipIdx_iff_getElem?.mpr hgroup, mem_map.mpr ⟨x, hx, rfl⟩⟩
  rw [positions, collect_eq_some_iff, hmem]
  intro x i j hi hj
  exact huniq x i j ((hmem x i).mp hi) ((hmem x j).mp hj)

lemma inGroup_unique {κ : Type} {groups : List (List κ)} (hnodup : groups.flatten.Nodup) {x : κ}
    {i j : ℕ} (hi : InGroup groups x i) (hj : InGroup groups x j) : i = j := by
  obtain ⟨g, hg, hx⟩ := hi
  obtain ⟨g', hg', hx'⟩ := hj
  obtain ⟨hilt, hieq⟩ := List.getElem_of_getElem? hg
  obtain ⟨hjlt, hjeq⟩ := List.getElem_of_getElem? hg'
  have hdisj := pairwise_iff_getElem.mp (nodup_flatten.mp hnodup).2
  rcases Nat.lt_trichotomy i j with hlt | heq | hlt
  · exact absurd (hjeq ▸ hx') (hdisj i j hilt hjlt hlt (hieq ▸ hx))
  · exact heq
  · exact absurd (hieq ▸ hx) (hdisj j i hjlt hilt hlt (hjeq ▸ hx'))

end Kyzo
