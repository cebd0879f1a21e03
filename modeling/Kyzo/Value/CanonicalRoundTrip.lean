import Kyzo.Value.CanonicalLoops
import Kyzo.Value.CanonicalOrder

/-!
# The canonical codec: round trips and canonicity

The decoder reads back every encoding whose value nests within the bound, answers `TooDeep` on
every other encoding, and accepts no byte string that is not the encoding of the value it returns.
With the order embedding of `CanonicalOrder` this makes the bytes of a value its identity.
-/

namespace Kyzo

open List RawValue Nat Subtype

/-! ## Nesting depth -/

namespace RawJson

mutual

/-- How many containers are entered to reach the deepest item. -/
def depth : RawJson → ℕ
  | .arr items => depthItems items
  | .obj entries => depthEntries entries
  | _ => 0

/-- One more than the deepest item of an array. -/
def depthItems : List RawJson → ℕ
  | [] => 0
  | x :: xs => max (depth x + 1) (depthItems xs)

/-- One more than the deepest value of an object. -/
def depthEntries : List (String × RawJson) → ℕ
  | [] => 0
  | (_, x) :: xs => max (depth x + 1) (depthEntries xs)

end

lemma depthItems_lt_succ (items : List RawJson) (n : ℕ) :
    depthItems items < n + 1 ↔ ∀ x ∈ items, depth x < n := by
  induction items with
  | nil => simp [depthItems]
  | cons x xs ih =>
    rw [depthItems, max_lt_iff, add_lt_add_iff_right, ih, forall_mem_cons]

lemma depthEntries_lt_succ (entries : List (String × RawJson)) (n : ℕ) :
    depthEntries entries < n + 1 ↔ ∀ x ∈ entries, depth x.2 < n := by
  induction entries with
  | nil => simp [depthEntries]
  | cons x xs ih =>
    rw [depthEntries, max_lt_iff, add_lt_add_iff_right, ih, forall_mem_cons]

end RawJson

namespace RawValue

mutual

/-- How many containers are entered to reach the deepest item.  A JSON document is read at the depth
of the value that holds it. -/
def depth : RawValue → ℕ
  | .list items => depthItems items
  | .set items => depthItems items
  | .json j => j.depth
  | _ => 0

/-- One more than the deepest item of a container. -/
def depthItems : List RawValue → ℕ
  | [] => 0
  | x :: xs => max (depth x + 1) (depthItems xs)

end

lemma depthItems_lt_succ (items : List RawValue) (n : ℕ) :
    depthItems items < n + 1 ↔ ∀ x ∈ items, depth x < n := by
  induction items with
  | nil => simp [depthItems]
  | cons x xs ih =>
    rw [depthItems, max_lt_iff, add_lt_add_iff_right, ih, forall_mem_cons]

end RawValue

/-! ## JSON -/

lemma encodeJson_head (j : RawJson) : ∃ b bs, encodeJson j = b :: bs ∧ b ≠ structSeqEnd := by
  obtain ⟨rest, hrest⟩ := encodeJson_eq_cons j
  refine ⟨_, _, hrest, ?_⟩
  intro heq
  have hlt := j.one_lt_rank
  rw [heq] at hlt
  exact lt_irrefl _ hlt

lemma decodeJson_answers {j : RawJson} (hj : j.Lawful) (budget : ℕ) :
    Answers (decodeJson budget) (j.depth < budget) .tooDeep j (encodeJson j) := by
  induction hj generalizing budget with
  | null => cases budget <;> intro s <;> rfl
  | bool b => cases budget <;> cases b <;> intro s <;> rfl
  | num n =>
    cases budget with
    | zero => exact fun s => rfl
    | succ budget =>
      refine Reads.answers (fun s => ?_) (succ_pos budget) _
      rw [encodeJson, cons_append, decodeJson, (decodeNum_faithful.reads n.num).bind]
      simp only [JsonNum.new_num, okOr, length_cons, add_comm]
      rfl
  | str t =>
    cases budget with
    | zero => exact fun s => rfl
    | succ budget =>
      refine Reads.answers (fun s => ?_) (succ_pos budget) _
      rw [encodeJson, cons_append, decodeJson, (decodeString_faithful.reads t).bind]
      simp [length_cons, add_comm]
  | @arr items hitems ih =>
    cases budget with
    | zero => exact fun s => rfl
    | succ budget =>
      intro s
      have hseq := decodeItems_answers items (fun x hx => ih x hx budget)
        (fun x _ => encodeJson_head x) (follow_true items)
      simp only [encodeJson, encodeJsonItems_eq, RawJson.depth, RawJson.depthItems_lt_succ]
      exact hseq.map_cons RawJson.arr 0x48 s
  | @obj entries hkeys hvals ih =>
    cases budget with
    | zero => exact fun s => rfl
    | succ budget =>
      intro s
      have hseq := decodeEntries_answers (p := fun j => j.depth < budget) entries
        (fun x hx => ih x hx budget) (pairwise_map.mpr hkeys)
      simp only [encodeJson, encodeJsonEntries_eq, RawJson.depth, RawJson.depthEntries_lt_succ]
      rw [cons_append, decodeJson, if_neg (by decide), if_neg (by decide),
        if_neg (by decide), if_neg (by decide), if_neg (by decide), if_neg (by decide), if_pos rfl]
      by_cases hc : ∀ x ∈ entries, x.2.depth < budget
      · rw [if_pos hc, (hseq.reads hc).bind]
        simp [RawJson.objNew_of_ascending hkeys, length_cons, add_comm]
      · rw [if_neg hc, hseq.bind_fails hc]

lemma decodeJson_sound (budget : ℕ) : Sound (decodeJson budget) RawJson.Lawful encodeJson := by
  induction budget with
  | zero =>
    intro bytes j k h
    cases h
  | succ budget ih =>
    intro bytes j k h
    cases bytes with
    | nil => cases h
    | cons marker rest =>
      rw [decodeJson] at h
      split_ifs at h with hnull hfalse htrue hnum hstr harr hobj
      · cases h
        exact ⟨.null, rest, by simp [encodeJson, hnull]⟩
      · cases h
        exact ⟨.bool false, rest, by simp [encodeJson, hfalse]⟩
      · cases h
        exact ⟨.bool true, rest, by simp [encodeJson, htrue]⟩
      · obtain ⟨⟨n, used⟩, hn, h⟩ := bind_ok h
        obtain ⟨s, rfl, rfl⟩ := decodeNum_faithful.sound _ _ _ hn
        obtain ⟨jn, hjn, h⟩ := bind_ok h
        cases h
        have hback : jn.num = n := JsonNum.num_of_new (okOr_eq_ok.mp hjn)
        refine ⟨.num jn, s, by simp [encodeJson, hback, hnum], ?_⟩
        rw [encodeJson, hback, length_cons, add_comm]
      · obtain ⟨⟨t, used⟩, ht, h⟩ := bind_ok h
        obtain ⟨s, rfl, rfl⟩ := decodeString_faithful.sound _ _ _ ht
        cases h
        refine ⟨.str t, s, by simp [encodeJson, hstr], ?_⟩
        rw [encodeJson, length_cons, add_comm]
      · obtain ⟨⟨items, used⟩, hitems, h⟩ := bind_ok h
        obtain ⟨⟨hP, -⟩, s, rfl, rfl⟩ := decodeItems_sound ih _ _ _ _ _ hitems
        cases h
        refine ⟨.arr hP, s, by simp [encodeJson, encodeJsonItems_eq, harr], ?_⟩
        rw [encodeJson, encodeJsonItems_eq, length_cons, add_comm]
      · obtain ⟨⟨entries, used⟩, hentries, h⟩ := bind_ok h
        obtain ⟨⟨hP, hasc⟩, s, rfl, rfl⟩ := decodeEntries_sound ih _ _ _ _ _ hentries
        have hkeys : Ascending RawJson.keyCmp entries := pairwise_map.mp hasc
        simp only [RawJson.objNew_of_ascending hkeys] at h
        cases h
        refine ⟨.obj hkeys hP, s, by simp [encodeJson, encodeJsonEntries_eq, hobj], ?_⟩
        rw [encodeJson, encodeJsonEntries_eq, length_cons, add_comm]

/-- A JSON document with its trailing hash. -/
def encodeJsonHashed (j : RawJson) : Bytes :=
  encodeJson j ++ beBytes 8 (fnv1a64 (encodeJson j)).toNat

lemma decodeJsonHashed_answers {j : RawJson} (hj : j.Lawful) (budget : ℕ) :
    Answers (decodeJsonHashed budget) (j.depth < budget) .tooDeep j (encodeJsonHashed j) := by
  intro s
  rw [decodeJsonHashed, encodeJsonHashed, append_assoc]
  by_cases hc : j.depth < budget
  · rw [((decodeJson_answers hj budget).reads hc).bind, if_pos hc]
    have hhash : (beBytes 8 (fnv1a64 (encodeJson j)).toNat ++ s).take 8 =
        beBytes 8 (fnv1a64 (encodeJson j)).toNat := take_left' (length_beBytes 8 _)
    simp only [drop_left, take_left, hhash, length_append, length_beBytes]
    rw [if_neg (by omega), if_neg (by simp)]
  · rw [(decodeJson_answers hj budget).bind_fails hc, if_neg hc]

lemma decodeJsonHashed_sound (budget : ℕ) :
    Sound (decodeJsonHashed budget) RawJson.Lawful encodeJsonHashed := by
  intro bytes j k h
  obtain ⟨⟨j', jused⟩, hj, h⟩ := bind_ok h
  obtain ⟨hlawful, s, rfl, rfl⟩ := decodeJson_sound budget _ _ _ hj
  simp only [drop_left, take_left, length_append] at h
  split_ifs at h with hlen hhash
  cases h
  refine ⟨hlawful, s.drop 8, ?_, ?_⟩
  · rw [encodeJsonHashed, append_assoc, ← not_ne_iff.mp hhash, take_append_drop]
  · rw [encodeJsonHashed, length_append, length_beBytes]

/-! ## Values -/

lemma encodeOwned_head (v : RawValue) : ∃ b bs, encodeOwned v = b :: bs ∧ b ≠ structSeqEnd := by
  obtain ⟨rest, hrest⟩ := encodeOwned_eq_cons v
  refine ⟨_, _, hrest, ?_⟩
  intro heq
  have hlt := v.tag.one_lt_byte
  rw [heq] at hlt
  exact lt_irrefl _ hlt

variable {items : List RawValue}

lemma ascending_map_encodeOwned (h : ∀ v ∈ items, v.Lawful) :
    Ascending compare (items.map encodeOwned) ↔ Ascending cmp items := by
  rw [Ascending, pairwise_map]
  refine List.Pairwise.iff_of_mem ?_
  intro x y hx hy
  rw [(settles (h x hx) (h y hy)).compare_eq]

lemma encodeOwned_list (items : List RawValue) : encodeOwned (.list items) =
      Tag.list.byte :: (items.flatMap encodeOwned ++ [structSeqEnd]) := by
  rw [encodeOwned, encodeEach_eq, flatMap_def]

lemma encodeOwned_set (hasc : Ascending cmp items) (h : ∀ v ∈ items, v.Lawful) :
    encodeOwned (.set items) =
      Tag.set.byte :: (items.flatMap encodeOwned ++ [structSeqEnd]) := by
  rw [encodeOwned, encodeEach_eq, sortDedup_of_ascending ((ascending_map_encodeOwned h).mpr hasc),
    flatMap_def]

variable {α : Type} {d : Decoder α} {a : α} {w : Bytes}

lemma tagged_answers {c : Prop} [Decidable c] {e : DecodeError} (h : Answers d c e a w)
    (mk : α → RawValue) (t : UInt8) (s : Bytes) :
    tagged mk (d (w ++ s)) = if c then .ok (mk a, (t :: w).length) else .error e := by
  rw [h s]
  by_cases hc : c
  · rw [if_pos hc, if_pos hc, length_cons, add_comm]
    rfl
  · rw [if_neg hc, if_neg hc]
    rfl

variable {v : RawValue} {mk : α → RawValue} {k : ℕ}

lemma ok_of_tagged {r : Except DecodeError (α × ℕ)} (h : tagged mk r = .ok (v, k)) :
    ∃ a used, r = .ok (a, used) ∧ v = mk a ∧ k = 1 + used := by
  cases r with
  | error e => cases h
  | ok r =>
    obtain ⟨a, used⟩ := r
    cases h
    exact ⟨a, used, rfl, rfl, rfl⟩

lemma decodeAt_payload {d : ℕ → Decoder α} {t : UInt8}
    (hpay : ∀ budget, Answers (d budget) (v.depth < budget + 1) .tooDeep a w) (hv : mk a = v)
    (henc : encodeOwned v = t :: w)
    (hdec : ∀ budget body, decodeAt (budget + 1) (t :: body) = tagged mk (d budget body))
    (budget : ℕ) : Answers (decodeAt budget) (v.depth < budget) .tooDeep v (encodeOwned v) := by
  intro s
  cases budget with
  | zero =>
    rfl
  | succ budget =>
    rw [henc, cons_append, hdec, tagged_answers (hpay budget) mk t s, hv]

variable {enc : α → Bytes}

lemma decodeAt_flat (hd : Faithful d enc) {t : UInt8}
    (henc : encodeOwned (mk a) = t :: enc a) (hdepth : (mk a).depth = 0)
    (hdec : ∀ budget body, decodeAt (budget + 1) (t :: body) = tagged mk (d body)) (budget : ℕ) :
    Answers (decodeAt budget) ((mk a).depth < budget) .tooDeep (mk a) (encodeOwned (mk a)) := by
  refine decodeAt_payload (fun b => (hd.reads a).answers ?_ _) rfl henc hdec budget
  rw [hdepth]
  exact succ_pos b

/-- **Round trip at any nesting budget**: the value within the bound, `TooDeep` beyond it. -/
theorem decodeAt_answers (hv : v.Lawful) (budget : ℕ) :
    Answers (decodeAt budget) (v.depth < budget) .tooDeep v (encodeOwned v) := by
  induction hv generalizing budget with
  | null => cases budget <;> exact fun s => rfl
  | bool b => exact decodeAt_flat decodeBool_faithful rfl rfl (fun _ _ => rfl) budget
  | num n => exact decodeAt_flat decodeNum_faithful rfl rfl (fun _ _ => rfl) budget
  | str t => exact decodeAt_flat decodeString_faithful rfl rfl (fun _ _ => rfl) budget
  | bytes b => exact decodeAt_flat decodeTerminated_faithful rfl rfl (fun _ _ => rfl) budget
  | uuid u => exact decodeAt_flat decodeUuid_faithful rfl rfl (fun _ _ => rfl) budget
  | regex r => exact decodeAt_flat decodeRegex_faithful rfl rfl (fun _ _ => rfl) budget
  | json hj =>
    exact decodeAt_payload (fun b => decodeJsonHashed_answers hj (b + 1)) rfl rfl
      (fun _ _ => rfl) budget
  | vector v => exact decodeAt_flat decodeVector_faithful rfl rfl (fun _ _ => rfl) budget
  | @list items hitems ih =>
    refine decodeAt_payload (fun b => ?_) rfl (encodeOwned_list items) (fun _ _ => rfl) budget
    exact (decodeItems_answers items (fun x hx => ih x hx b) (fun x _ => encodeOwned_head x)
      (follow_true items)).congr (depthItems_lt_succ items b).symm
  | @set items hasc hitems ih =>
    have hdec : ∀ b body, decodeAt (b + 1) (Tag.set.byte :: body) =
        tagged (fun l => .set (sortDedup cmp l))
          (decodeSetItems (decodeAt b) body.length none body) := fun _ _ => rfl
    have hcollect := congrArg RawValue.set (sortDedup_of_ascending hasc)
    refine decodeAt_payload (fun b => ?_) (by exact hcollect)
      (encodeOwned_set hasc hitems) hdec budget
    have hfollow := (follow_lt_iff none items).mpr ((ascending_map_encodeOwned hitems).mpr hasc)
    exact (decodeItems_answers items (fun x hx => ih x hx b) (fun x _ => encodeOwned_head x)
      hfollow).congr (depthItems_lt_succ items b).symm
  | validity v => exact decodeAt_flat decodeValidity_faithful rfl rfl (fun _ _ => rfl) budget
  | interval iv => exact decodeAt_flat decodeInterval_faithful rfl rfl (fun _ _ => rfl) budget
  | geometry g => exact decodeAt_flat decodeGeometry_faithful rfl rfl (fun _ _ => rfl) budget

lemma sound_of_tagged {P : α → Prop} (hd : Sound d P enc) {t : Tag} {tagByte : UInt8}
    {body : Bytes} (ht : t.byte = tagByte)
    (hmk : ∀ a, P a → (mk a).Lawful ∧ encodeOwned (mk a) = t.byte :: enc a)
    (h : tagged mk (d body) = .ok (v, k)) :
    v.Lawful ∧ ∃ s, tagByte :: body = encodeOwned v ++ s ∧ k = (encodeOwned v).length := by
  obtain ⟨a, used, ha, rfl, rfl⟩ := ok_of_tagged h
  obtain ⟨hP, s, rfl, rfl⟩ := hd _ _ _ ha
  obtain ⟨hlawful, henc⟩ := hmk a hP
  refine ⟨hlawful, s, ?_, ?_⟩
  · rw [henc, ht, cons_append]
  · rw [henc, length_cons, add_comm]

lemma Faithful.toSound (hd : Faithful d enc) : Sound d (fun _ => True) enc :=
  fun bytes a k h => ⟨trivial, hd.sound bytes a k h⟩

/-- **Canonicity at any nesting budget**: whatever is accepted begins with the encoding of the
lawful value it is read as. -/
theorem decodeAt_sound (budget : ℕ) : Sound (decodeAt budget) Lawful encodeOwned := by
  induction budget with
  | zero =>
    intro bytes v k h
    cases h
  | succ budget ih =>
    intro bytes v k h
    cases bytes with
    | nil => cases h
    | cons tagByte body =>
      rw [decodeAt] at h
      cases htag : Tag.fromByte tagByte with
      | none => simp [htag] at h
      | some t =>
        have ht := Tag.byte_of_fromByte htag
        simp only [htag] at h
        cases t with
        | null =>
          cases h
          exact ⟨.null, body, by rw [← ht]; rfl, rfl⟩
        | bool =>
          exact sound_of_tagged decodeBool_faithful.toSound ht (fun b _ => ⟨.bool b, rfl⟩) h
        | num => exact sound_of_tagged decodeNum_faithful.toSound ht (fun n _ => ⟨.num n, rfl⟩) h
        | str =>
          exact sound_of_tagged decodeString_faithful.toSound ht (fun x _ => ⟨.str x, rfl⟩) h
        | bytes =>
          exact sound_of_tagged decodeTerminated_faithful.toSound ht (fun x _ => ⟨.bytes x, rfl⟩) h
        | uuid => exact sound_of_tagged decodeUuid_faithful.toSound ht (fun u _ => ⟨.uuid u, rfl⟩) h
        | regex =>
          exact sound_of_tagged decodeRegex_faithful.toSound ht (fun r _ => ⟨.regex r, rfl⟩) h
        | json =>
          exact sound_of_tagged (decodeJsonHashed_sound (budget + 1)) ht
            (fun j hj => ⟨.json hj, rfl⟩) h
        | vector =>
          exact sound_of_tagged decodeVector_faithful.toSound ht (fun x _ => ⟨.vector x, rfl⟩) h
        | list =>
          exact sound_of_tagged (decodeItems_sound ih body.length none) ht
            (fun items hitems => ⟨.list hitems.1, encodeOwned_list items⟩) h
        | set =>
          refine sound_of_tagged (decodeItems_sound ih body.length none) ht ?_ h
          rintro items ⟨hitems, hfollow⟩
          have hasc := (ascending_map_encodeOwned hitems).mp ((follow_lt_iff none items).mp hfollow)
          rw [sortDedup_of_ascending hasc]
          exact ⟨.set hasc hitems, encodeOwned_set hasc hitems⟩
        | validity =>
          exact sound_of_tagged decodeValidity_faithful.toSound ht
            (fun x _ => ⟨.validity x, rfl⟩) h
        | interval =>
          exact sound_of_tagged decodeInterval_faithful.toSound ht
            (fun x _ => ⟨.interval x, rfl⟩) h
        | geometry =>
          exact sound_of_tagged decodeGeometry_faithful.toSound ht
            (fun g _ => ⟨.geometry g, rfl⟩) h

/-! ## Whole byte strings -/

lemma decodeAt_reads (hv : v.Lawful) : Reads (decodeAt (v.depth + 1)) v (encodeOwned v) :=
  (decodeAt_answers hv (v.depth + 1)).reads (lt_succ_self _)

lemma RawValue.eq_of_isPrefix {v w : RawValue} (hv : v.Lawful) (hw : w.Lawful)
    (h : encodeOwned v <+: encodeOwned w) : v = w := by
  have henc : encodeOwned v = encodeOwned w := (settles hv hw).eq_of_isPrefix h
  -- Both values are read off the same bytes; only their nesting bounds could differ.
  have hread : Answers (decodeAt (v.depth + 1)) (w.depth < v.depth + 1) .tooDeep w
      (encodeOwned v) := henc ▸ decodeAt_answers hw (v.depth + 1)
  have hv' := decodeAt_reads hv []
  rw [hread []] at hv'
  split at hv'
  · cases hv'
    rfl
  · cases hv'

lemma DataValue.compare_eq_iff (v w : DataValue) : compare v w = .eq ↔ v = w := by
  have hset : compare v w = .eq ↔ encodeOwned v.val = encodeOwned w.val :=
    (settles v.property w.property).eq_iff
  rw [hset]
  constructor
  · intro henc
    exact Subtype.ext (eq_of_isPrefix v.property w.property (henc ▸ prefix_rfl))
  · rintro rfl
    rfl

lemma DataValue.compare_eq_compareOn :
    (compare : DataValue → DataValue → Ordering) = compareOn fun v => encodeOwned v.val := by
  funext v w
  exact (settles v.property w.property).compare_eq.symm

instance : Std.TransOrd DataValue := by
  rw [Std.TransOrd, DataValue.compare_eq_compareOn]
  infer_instance

instance : Std.LawfulEqOrd DataValue where
  eq_of_compare h := (DataValue.compare_eq_iff _ _).mp h
  compare_self := (DataValue.compare_eq_iff _ _).mpr rfl

instance : DecidableEq DataValue := fun v w =>
  decidable_of_iff (compare v w = .eq) (DataValue.compare_eq_iff v w)

/-- **Order embedding.**  Bare tuples compare as bytes exactly as their values compare in
lexicographic storage order; an encoding determines its value; and no encoding is a proper prefix of
another. -/
theorem canonical_order_embedding : (∀ vs ws : List DataValue,
      compare (encodeTupleBare (vs.map val)) (encodeTupleBare (ws.map val)) =
        List.compareLex compare vs ws) ∧
    (∀ v w : DataValue, encodeOwned v.val = encodeOwned w.val ↔ v = w) ∧
    (∀ v w : DataValue, encodeOwned v.val <+: encodeOwned w.val ↔ v = w) := by
  have hpre : ∀ v w : DataValue, encodeOwned v.val <+: encodeOwned w.val → v = w :=
    fun v w h => Subtype.ext (eq_of_isPrefix v.property w.property h)
  refine ⟨?_, ?_, ?_⟩
  · intro vs ws
    have hne : ∀ v : DataValue, encodeOwned v.val ≠ [] := by
      intro v
      obtain ⟨rest, hrest⟩ := encodeOwned_eq_cons v.val
      simp [hrest]
    rw [encodeTupleBare, encodeTupleBare, flatMap_map, flatMap_map]
    exact compare_flatMap vs ws (fun v _ w _ => settles v.property w.property)
      (fun v _ => hne v) (fun w _ => hne w)
  · intro v w
    exact ⟨fun h => hpre v w (h ▸ prefix_rfl), fun h => h ▸ rfl⟩
  · intro v w
    exact ⟨hpre v w, fun h => h ▸ prefix_rfl⟩

/-- `decode` on the encoding of a value. -/
theorem decode_encodeOwned (hv : v.Lawful) :
    decode (encodeOwned v) = if v.depth ≤ maxDepth then .ok v else .error .tooDeep := by
  have hans := decodeAt_answers hv (maxDepth + 1) []
  rw [append_nil] at hans
  rw [decode, decodeOne, hans]
  by_cases hc : v.depth ≤ maxDepth
  · rw [if_pos hc, if_pos (lt_succ_of_le hc)]
    simp [bind, Except.bind]
  · rw [if_neg hc, if_neg (by omega)]
    rfl

/-- The loop of `decode_values_all` on a bare tuple. -/
theorem decodeValuesLoop_encodeTupleBare (vs : List RawValue) (hvs : ∀ v ∈ vs, v.Lawful)
    (bound : ℕ) (hbound : (encodeTupleBare vs).length ≤ bound) :
    decodeValuesLoop bound (encodeTupleBare vs) =
      if ∀ v ∈ vs, v.depth ≤ maxDepth then .ok vs else .error .tooDeep := by
  induction vs generalizing bound with
  | nil => cases bound <;> simp [encodeTupleBare, decodeValuesLoop]
  | cons v vs ih =>
    obtain ⟨rest, hrest⟩ := encodeOwned_eq_cons v
    have hsplit : encodeTupleBare (v :: vs) = encodeOwned v ++ encodeTupleBare vs := rfl
    have hne : encodeOwned v ++ encodeTupleBare vs ≠ [] := by simp [hrest]
    have hpos : 0 < (encodeOwned v).length := by simp [hrest]
    rw [hsplit, length_append] at hbound
    obtain ⟨bound, rfl⟩ := exists_eq_add_one_of_ne_zero (show bound ≠ 0 by omega)
    have hv := decodeAt_answers (hvs v (by simp)) (maxDepth + 1)
    have htail := ih (fun w hw => hvs w (by simp [hw])) bound (by omega)
    rw [hsplit, decodeValuesLoop, if_neg hne, decodeOne]
    by_cases hc : v.depth ≤ maxDepth
    · rw [(hv.reads (lt_succ_of_le hc)).bind]
      simp only [drop_left, htail]
      by_cases hcs : ∀ w ∈ vs, w.depth ≤ maxDepth
      · rw [if_pos hcs, if_pos (by simpa using ⟨hc, hcs⟩)]
        rfl
      · rw [if_neg hcs, if_neg (by simpa using fun _ => by simpa using hcs)]
        rfl
    · rw [hv.bind_fails (by omega), if_neg (by simp [hc])]

/-- **Round trip.**  A value that nests within `MAX_DEPTH` is read back from its encoding, and a
deeper one is refused as too deep; a tuple is read back exactly when each of its values is. -/
theorem decode_encode_iff_within_maxDepth : (∀ v : DataValue, decode (encodeOwned v.val) =
      if v.val.depth ≤ maxDepth then .ok v.val else .error .tooDeep) ∧
    (∀ vs : List DataValue, decodeTupleBare (encodeTupleBare (vs.map val)) =
      if ∀ v ∈ vs, v.val.depth ≤ maxDepth then .ok (vs.map val) else .error .tooDeep) := by
  refine ⟨fun v => decode_encodeOwned v.property, ?_⟩
  intro vs
  have hlawful : ∀ v ∈ vs.map val, v.Lawful := by
    intro v hv
    obtain ⟨w, -, rfl⟩ := mem_map.mp hv
    exact w.property
  rw [decodeTupleBare, decodeValuesAll, decodeValuesLoop_encodeTupleBare _ hlawful _ le_rfl]
  exact if_congr (by simp) rfl rfl

/-- A list that nests `n` containers below itself. -/
def nestedList : ℕ → RawValue
  | 0 => .list []
  | n + 1 => .list [nestedList n]

lemma depth_nestedList (n : ℕ) : (nestedList n).depth = n := by
  induction n with
  | zero => rfl
  | succ n ih => simp [nestedList, depth, depthItems, ih]

lemma nestedList_lawful (n : ℕ) : (nestedList n).Lawful := by
  induction n with
  | zero => exact .list (by simp)
  | succ n ih => exact .list (by simpa using ih)

/-- A list nested one level beyond the bound is encoded and not read back. -/
theorem decode_encodeOwned_nestedList : (nestedList 129).Lawful ∧
      decode (encodeOwned (nestedList 129)) = .error .tooDeep ∧
      decodeTupleBare (encodeTupleBare [nestedList 129]) = .error .tooDeep := by
  refine ⟨nestedList_lawful 129, ?_, ?_⟩
  · rw [decode_encodeOwned (nestedList_lawful 129), depth_nestedList]
    rfl
  · rw [decodeTupleBare, decodeValuesAll,
      decodeValuesLoop_encodeTupleBare _ (by simpa using nestedList_lawful 129) _ le_rfl,
      if_neg (by simp [depth_nestedList, maxDepth])]

/-- What `decode` accepts is the encoding of the lawful value it returns. -/
theorem encodeOwned_of_decode {bytes : Bytes} (h : decode bytes = .ok v) :
    v.Lawful ∧ encodeOwned v = bytes := by
  obtain ⟨⟨w, used⟩, hw, h⟩ := bind_ok h
  obtain ⟨hlawful, s, rfl, rfl⟩ := decodeAt_sound _ _ _ _ hw
  simp only [length_append] at h
  split_ifs at h with hused
  cases h
  have hs : s = [] := eq_nil_of_length_eq_zero (by omega)
  rw [hs, append_nil]
  exact ⟨hlawful, rfl⟩

/-- **Canonicity.**  A byte string that decodes is the encoding of its value, so no other byte
string decodes to the same value. -/
theorem decode_canonical {bytes : Bytes} {v : RawValue} (h : decode bytes = .ok v) :
    v.Lawful ∧ encodeOwned v = bytes ∧ ∀ bytes', decode bytes' = .ok v → bytes' = bytes := by
  obtain ⟨hlawful, henc⟩ := encodeOwned_of_decode h
  refine ⟨hlawful, henc, ?_⟩
  intro bytes' h'
  rw [← (encodeOwned_of_decode h').2, henc]

/-- The two-element list of `null` and `true`, read and written back. -/
theorem decode_canonical_list :
    decode [0x48, 0x05, 0x08, 0x01, 0x01] = .ok (.list [.null, .bool true]) ∧
      encodeOwned (.list [.null, .bool true]) = [0x48, 0x05, 0x08, 0x01, 0x01] := by
  have h : decode [0x48, 0x05, 0x08, 0x01, 0x01] = .ok (.list [.null, .bool true]) := by rfl
  exact ⟨h, (decode_canonical h).2.1⟩

end Kyzo
