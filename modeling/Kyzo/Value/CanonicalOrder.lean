import Kyzo.Value.Canonical

/-!
# Byte order of canonical encodings is the storage order

For lawful values `a` and `b`, the encodings settle as `RawValue.cmp a b`: byte comparison of the
encodings is the storage order, and no encoding is a proper prefix of another
(`RawValue.settles`).

The encoder sorts the elements of a set by their encoded bytes, while the storage order reads them
in iteration order.  The proof goes through `encodeInOrder`, which writes set elements in iteration
order: it settles for all lawful values, and the encoder agrees with it because the iteration order
of a lawful set is then the byte order.
-/

namespace Kyzo

open List RawJson RawValue Settles Nat

/-! ## Flat kinds -/

/-- Flipping the top bit of a number below `2 ^ 63` adds `2 ^ 63`. -/
theorem xor_top {r : ℕ} (h : r < 2 ^ 63) : r ^^^ 2 ^ 63 = r + 2 ^ 63 := by
  have hadd : 2 ^ 63 * 1 + r = 2 ^ 63 * 1 ||| r := two_pow_add_eq_or_of_lt h 1
  have hxor : 2 ^ 63 ^^^ r = 2 ^ 63 ||| r := by
    apply eq_of_testBit_eq
    intro i
    rw [testBit_xor, testBit_or, testBit_two_pow]
    by_cases hi : 63 = i
    · subst hi
      have hbit : r.testBit 63 = false := testBit_lt_two_pow h
      simp [hbit]
    · simp [hi]
  rw [mul_one] at hadd
  rw [Nat.xor_comm, hxor, ← hadd, add_comm]

/-- Flipping the sign bit of an instant shifts it by `2 ^ 63`. -/
theorem toNat_flip (t : Int64) :
    ((t ^^^ Int64.minValue).toUInt64.toNat : ℤ) = t.toInt + 2 ^ 63 := by
  have hflip : (t ^^^ Int64.minValue).toUInt64.toNat = t.toBitVec.toNat ^^^ 2 ^ 63 := rfl
  have hint : t.toInt = t.toBitVec.toInt := rfl
  rw [hflip, hint, BitVec.toInt_eq_toNat_cond]
  by_cases hsmall : t.toBitVec.toNat < 2 ^ 63
  · rw [if_pos (by omega), xor_top hsmall]
    push_cast
    ring
  · -- The sign bit is set: write the number as `r + 2 ^ 63` and flip it back.
    obtain ⟨r, hr, hrlt⟩ : ∃ r, t.toBitVec.toNat = r + 2 ^ 63 ∧ r < 2 ^ 63 :=
      ⟨t.toBitVec.toNat - 2 ^ 63, by omega, by omega⟩
    rw [if_neg (by omega), hr, ← xor_top hrlt, Nat.xor_assoc, Nat.xor_self, xor_zero]
    rw [xor_top hrlt]
    push_cast
    ring

lemma compare_int64 (a b : Int64) : compare a b = compare a.toInt b.toInt := by
  simp [compare, compareOfLessAndEq, Int64.lt_iff_toInt_lt, Int64.toInt_inj]

lemma settles_ascTsKey (a b : Int64) : Settles (compare a b) (ascTsKey a) (ascTsKey b) := by
  have ha := toNat_flip a
  have hb := toNat_flip b
  have hcmp : compare a b = compare (a ^^^ Int64.minValue).toUInt64.toNat
      (b ^^^ Int64.minValue).toUInt64.toNat := by
    rw [compare_int64]
    simp only [compare, compareOfLessAndEq]
    congr 1
    · rw [eq_iff_iff]
      omega
    · congr 1
      rw [eq_iff_iff]
      omega
  rw [hcmp]
  have hfit : ∀ u : UInt64, u.toNat < 256 ^ 8 := fun u =>
    lt_of_lt_of_le u.toNat_lt (by norm_num)
  exact Settles.beBytes (hfit _) (hfit _)

lemma settles_descTsKey (a b : Int64) : Settles (compare b a) (descTsKey a) (descTsKey b) := by
  have h := (settles_ascTsKey a b).complement (by simp)
  rwa [← Std.OrientedOrd.eq_swap] at h

lemma Interval.settles (a b : Interval) :
    Settles (a.cmp b) (encodeIntervalBody a) (encodeIntervalBody b) := by
  have hlo : ∀ x y : Lo, Settles ((compare (loKey x).1 (loKey y).1).then
      (compare (loKey x).2 (loKey y).2)) (encodeLo x) (encodeLo y) := by
    intro x y
    cases x <;> cases y
    · exact refl _
    · exact of_head_lt _ _ (by decide)
    · exact (of_head_lt _ _ (by decide)).swap
    · exact (settles_ascTsKey _ _).cons _
  have hhi : ∀ x y : Hi, Settles ((compare (hiKey x).1 (hiKey y).1).then
      (compare (hiKey x).2 (hiKey y).2)) (encodeHi x) (encodeHi y) := by
    intro x y
    cases x <;> cases y
    · exact (settles_ascTsKey _ _).cons _
    · exact (of_head_lt _ _ (by decide)).swap
    · exact of_head_lt _ _ (by decide)
    · exact refl _
  unfold Interval.cmp encodeIntervalBody Interval.key
  cases a.ends with
  | none =>
    cases b.ends with
    | none => exact refl _
    | some eb => exact of_head_lt _ _ (by decide)
  | some ea =>
    cases b.ends with
    | none => exact (of_head_lt _ _ (by decide)).swap
    | some eb =>
      obtain ⟨lo, hi⟩ := ea
      obtain ⟨lo', hi'⟩ := eb
      have h := ((hlo lo lo').append (hhi hi hi')).cons 0x02
      simpa [Ordering.then_assoc] using h

lemma Vector.settles (a b : Vector) : Settles ((compare a.dimension b.dimension).then
        (zipCmp (fun x y => x.num.cmp y.num) a.components b.components))
      (beBytes 4 a.dimension ++ a.components.flatMap fun c => c.num.encodeKey)
      (beBytes 4 b.dimension ++ b.components.flatMap fun c => c.num.encodeKey) := by
  have hfit : ∀ v : Vector, v.dimension < 256 ^ 4 := fun v =>
    lt_of_lt_of_le v.length_lt (by norm_num)
  have hdim := Settles.beBytes (hfit a) (hfit b)
  by_cases hlen : a.components.length = b.components.length
  · rw [zipCmp_of_length_eq _ hlen]
    exact hdim.append (flatMap_of_length_eq hlen fun x _ y _ => x.num.settles y.num)
  · have hne : compare a.dimension b.dimension ≠ .eq := fun h => hlen (Nat.compare_eq_eq.mp h)
    have hthen : ∀ o, (compare a.dimension b.dimension).then o =
        compare a.dimension b.dimension := by
      intro o
      cases h : compare a.dimension b.dimension with
      | eq => exact absurd h hne
      | lt | gt => rfl
    rw [hthen]
    exact hdim.append_of_ne hne _ _

/-! ## JSON -/

lemma encodeJsonItems_eq (items : List RawJson) :
    encodeJsonItems items = items.flatMap encodeJson := by
  induction items with
  | nil => rfl
  | cons item items ih => simp [encodeJsonItems, ih]

lemma encodeJsonEntries_eq (entries : List (String × RawJson)) :
    encodeJsonEntries entries = entries.flatMap (encodeEntry encodeJson) := by
  induction entries with
  | nil => rfl
  | cons e entries ih => simp [encodeJsonEntries, encodeEntry, ih]

lemma encodeJson_eq_cons (j : RawJson) : ∃ rest, encodeJson j = j.rank :: rest := by
  cases j with
  | bool b => cases b <;> exact ⟨_, rfl⟩
  | _ => exact ⟨_, by rfl⟩

lemma RawJson.one_lt_rank (j : RawJson) : structSeqEnd.toNat < j.rank.toNat := by
  cases j with
  | bool b => cases b <;> decide
  | _ => simp only [rank]; decide

lemma RawJson.settles {a b : RawJson} (ha : a.Lawful) :
    Settles (cmp a b) (encodeJson a) (encodeJson b) := by
  -- Different markers settle at once; the induction is on the lawful left value.
  have hmark : ∀ {a b : RawJson}, (a.rank = b.rank →
      Settles (cmp a b) (encodeJson a) (encodeJson b)) →
      Settles (cmp a b) (encodeJson a) (encodeJson b) := by
    intro a b hsame
    by_cases hr : a.rank = b.rank
    · exact hsame hr
    obtain ⟨ra, hra⟩ := encodeJson_eq_cons a
    obtain ⟨rb, hrb⟩ := encodeJson_eq_cons b
    rw [cmp_of_rank_ne hr, hra, hrb]
    exact of_head_ne _ _ hr
  have hhead : ∀ j : RawJson, ∃ x xs, encodeJson j = x :: xs ∧ structSeqEnd.toNat < x.toNat := by
    intro j
    obtain ⟨rest, hrest⟩ := encodeJson_eq_cons j
    exact ⟨_, _, hrest, j.one_lt_rank⟩
  have hhead' : ∀ e : String × RawJson,
      ∃ x xs, encodeEntry encodeJson e = x :: xs ∧ structSeqEnd.toNat < x.toNat := by
    intro e
    exact ⟨0x18, _, rfl, by decide⟩
  induction ha generalizing b <;> refine hmark fun hr => ?_
  case bool c =>
    cases c <;> rcases b with _ | (_ | _) | _ | _ | _ | _ <;> try (simp [rank] at hr; done)
    all_goals exact refl _
  all_goals rcases b with _ | (_ | _) | _ | _ | _ | _ <;> try (simp [rank] at hr; done)
  case null.null => exact refl _
  case num.num n m => exact (n.num.settles m.num).cons _
  case str.str => exact (Settles.escape _ _).cons _
  case arr.arr items hitems ih items' =>
    rw [cmp_arr, encodeJson, encodeJson, encodeJsonItems_eq, encodeJsonItems_eq]
    exact (flatMap items items' (fun x hx y _ => ih x hx) (fun x _ => hhead x)
      (fun y _ => hhead y)).cons _
  case obj.obj entries hkeys hvals ih entries' =>
    have hentry : ∀ x ∈ entries, ∀ y ∈ entries',
        Settles (entryCmp x y) (encodeEntry encodeJson x) (encodeEntry encodeJson y) :=
      fun x hx y hy => ((Settles.escape _ _).cons 0x18).append (ih x hx)
    rw [cmp_obj, encodeJson, encodeJson, encodeJsonEntries_eq, encodeJsonEntries_eq]
    exact (flatMap entries entries' hentry (fun x _ => hhead' x) (fun y _ => hhead' y)).cons _

/-! ## Values -/

lemma encodeEach_eq (items : List RawValue) : encodeEach items = items.map encodeOwned := by
  induction items with
  | nil => rfl
  | cons item items ih => simp [encodeEach, ih]

mutual

/-- The encoding with set elements written in iteration order instead of byte order. -/
def encodeInOrder : RawValue → Bytes
  | .list items => Tag.list.byte :: (encodeInOrderItems items ++ [structSeqEnd])
  | .set items => Tag.set.byte :: (encodeInOrderItems items ++ [structSeqEnd])
  | v => encodeOwned v

/-- The items of a container in iteration order. -/
def encodeInOrderItems : List RawValue → Bytes
  | [] => []
  | item :: items => encodeInOrder item ++ encodeInOrderItems items

end

lemma encodeInOrderItems_eq (items : List RawValue) :
    encodeInOrderItems items = items.flatMap encodeInOrder := by
  induction items with
  | nil => rfl
  | cons item items ih => simp [encodeInOrderItems, ih]

lemma encodeOwned_eq_cons (v : RawValue) : ∃ rest, encodeOwned v = v.tag.byte :: rest := by
  cases v <;> exact ⟨_, by rfl⟩

lemma encodeInOrder_eq_cons (v : RawValue) : ∃ rest, encodeInOrder v = v.tag.byte :: rest := by
  cases v with
  | list | set => exact ⟨_, by rfl⟩
  | _ => exact encodeOwned_eq_cons _

variable {a b : RawValue}

lemma settles_of_tag (hsame : a.tag = b.tag →
      Settles (cmp a b) (encodeInOrder a) (encodeInOrder b)) :
    Settles (cmp a b) (encodeInOrder a) (encodeInOrder b) := by
  by_cases ht : a.tag = b.tag
  · exact hsame ht
  obtain ⟨ra, hra⟩ := encodeInOrder_eq_cons a
  obtain ⟨rb, hrb⟩ := encodeInOrder_eq_cons b
  rw [cmp_of_tag_ne ht, hra, hrb]
  exact of_head_ne _ _ fun hb => ht (Tag.byte_injective hb)

lemma settles_items {xs ys : List RawValue}
    (hitem : ∀ x ∈ xs, ∀ y ∈ ys, Settles (cmp x y) (encodeInOrder x) (encodeInOrder y)) :
    Settles (List.compareLex RawValue.cmp xs ys) (encodeInOrderItems xs ++ [structSeqEnd])
      (encodeInOrderItems ys ++ [structSeqEnd]) := by
  have hhead : ∀ v : RawValue,
      ∃ b bs, encodeInOrder v = b :: bs ∧ structSeqEnd.toNat < b.toNat := by
    intro v
    obtain ⟨rest, hrest⟩ := encodeInOrder_eq_cons v
    exact ⟨_, _, hrest, v.tag.one_lt_byte⟩
  rw [encodeInOrderItems_eq, encodeInOrderItems_eq]
  exact flatMap xs ys hitem (fun x _ => hhead x) (fun y _ => hhead y)

lemma settles_flat (ha : a.Lawful) (ht : a.tag = b.tag)
    (hlist : a.tag ≠ .list) (hset : a.tag ≠ .set) :
    Settles (cmp a b) (encodeOwned a) (encodeOwned b) := by
  have hsame : ¬ a.tag.cmp b.tag ≠ .eq := by
    rw [ht]
    simp [Tag.cmp]
  unfold RawValue.cmp
  rw [if_neg hsame]
  cases ha <;> cases b <;> try (simp [tag] at ht; done)
  case list.list => exact absurd rfl hlist
  case set.set => exact absurd rfl hset
  case null.null => exact refl _
  case bool.bool c d =>
    refine cons _ ?_
    cases c <;> cases d <;> exact byte _ _
  case num.num n m => exact (n.settles m).cons _
  case str.str | bytes.bytes => exact (Settles.escape _ _).cons _
  case uuid.uuid u w => exact (of_length_eq (u.length_eq.trans w.length_eq.symm)).cons _
  case regex.regex => exact ((byte _ _).append (Settles.escape _ _)).cons _
  case json.json hj _ =>
    -- The trailing hash is a function of the bytes before it.
    exact ((settles hj).append_image fun e => beBytes 8 (fnv1a64 e).toNat).cons _
  case vector.vector v w => exact (v.settles w).cons _
  case validity.validity v w =>
    refine cons _ (append (settles_descTsKey _ _) ?_)
    cases v.isAssert <;> cases w.isAssert <;> exact byte _ _
  case interval.interval iv jv => exact (iv.settles jv).cons _
  case geometry.geometry g k => exact (g.settles k).cons _

lemma encodeInOrder_flat {v : RawValue} (hlist : v.tag ≠ .list) (hset : v.tag ≠ .set) :
    encodeInOrder v = encodeOwned v := by
  cases v with
  | list items => exact absurd rfl hlist
  | set items => exact absurd rfl hset
  | _ => rfl

lemma settles_inOrder_flat (ha : a.Lawful) (hlist : a.tag ≠ .list) (hset : a.tag ≠ .set) :
    Settles (cmp a b) (encodeInOrder a) (encodeInOrder b) := by
  refine settles_of_tag fun ht => ?_
  rw [encodeInOrder_flat hlist hset, encodeInOrder_flat (ht ▸ hlist) (ht ▸ hset)]
  exact settles_flat ha ht hlist hset

lemma settles_inOrder (ha : a.Lawful) (hb : b.Lawful) :
    Settles (cmp a b) (encodeInOrder a) (encodeInOrder b) := by
  have hlaw := ha
  induction ha generalizing b with
  | @list items hitems ih =>
    refine settles_of_tag fun ht => ?_
    cases hb with
    | @list items' hitems' =>
      rw [cmp_list]
      exact (settles_items fun x hx y hy => ih x hx (hitems' y hy) (hitems x hx)).cons _
    | _ => simp [tag] at ht
  | @set items hasc hitems ih =>
    refine settles_of_tag fun ht => ?_
    cases hb with
    | @set items' hasc' hitems' =>
      rw [cmp_set]
      exact (settles_items fun x hx y hy => ih x hx (hitems' y hy) (hitems x hx)).cons _
    | _ => simp [tag] at ht
  | _ => exact settles_inOrder_flat hlaw (by simp [tag]) (by simp [tag])

lemma encodeOwned_eq_inOrder {v : RawValue} (h : v.Lawful) : encodeOwned v = encodeInOrder v := by
  induction h with
  | @list items hitems ih =>
    rw [encodeOwned, encodeInOrder, encodeEach_eq, encodeInOrderItems_eq, ← flatMap_def]
    rw [flatMap_congr ih]
  | @set items hasc hitems ih =>
    have hmap : items.map encodeOwned = items.map encodeInOrder := map_congr_left ih
    have hbytes : Ascending compare (items.map encodeInOrder) := by
      rw [Ascending, pairwise_map]
      refine Pairwise.imp_of_mem ?_ hasc
      intro x y hx hy hlt
      rw [(settles_inOrder (hitems x hx) (hitems y hy)).compare_eq, hlt]
    rw [encodeOwned, encodeInOrder, encodeEach_eq, hmap, sortDedup_of_ascending hbytes,
      encodeInOrderItems_eq, flatMap_def]
  | _ => rfl

/-- **Canonical encodings settle in the storage order.** -/
theorem settles (ha : a.Lawful) (hb : b.Lawful) :
    Settles (cmp a b) (encodeOwned a) (encodeOwned b) := by
  rw [encodeOwned_eq_inOrder ha, encodeOwned_eq_inOrder hb]
  exact settles_inOrder ha hb

end Kyzo
