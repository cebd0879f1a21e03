import Kyzo.Lib.PrefixCodec
import Kyzo.Value.Canonical

/-!
# Payload codecs of the flat kinds

Each payload decoder of the canonical codec and the encoder of its kind are inverse to each other:
the decoder reads back exactly what the encoder writes, whatever follows, and accepts nothing else.
-/

namespace Kyzo

open List VectorComponent Kyzo.Interval Kyzo.Geometry

/-- Only a present value passes `ok_or`. -/
@[simp] theorem okOr_eq_ok {α : Type} {o : Option α} {e : DecodeError} {a : α} :
    okOr o e = .ok a ↔ o = some a := by
  cases o <;> simp [okOr]

/-! ## Numbers and terminated strings -/

lemma decodeNum_faithful : Faithful decodeNum Num.encodeKey where
  reads := by
    intro n s
    rw [decodeNum, Num.decodeKey_encodeKey]
  sound := by
    intro bytes n k h
    unfold decodeNum at h
    split at h
    · next r hr =>
      cases h
      exact Num.encodeKey_of_decodeKey hr
    · cases h

lemma decodeTerminated_escaped (rest : Bytes) : decodeTerminated (0x00 :: 0xFF :: rest) =
      (decodeTerminated rest >>= fun r => .ok (0x00 :: r.1, r.2 + 2)) := by
  rfl

lemma decodeTerminated_plain {b : UInt8} (hb : b ≠ 0x00) (rest : Bytes) :
    decodeTerminated (b :: rest) =
      (decodeTerminated rest >>= fun r => .ok (b :: r.1, r.2 + 1)) := by
  rw [decodeTerminated.eq_def]
  simp [if_neg hb]

/-- An escaped string is read back up to its terminator. -/
lemma decodeTerminated_reads (content : Bytes) :
    Reads decodeTerminated content (escape content) := by
  induction content with
  | nil => intro s; simp [escape, decodeTerminated]
  | cons b bs ih =>
    intro s
    by_cases hb : b = 0x00
    · subst hb
      rw [escape, if_pos rfl, cons_append, cons_append, decodeTerminated_escaped, ih.bind]
      rfl
    · rw [escape, if_neg hb, cons_append, decodeTerminated_plain hb, ih.bind]
      rfl

/-- Nothing but an escaped string is accepted. -/
lemma decodeTerminated_sound (bytes content : Bytes) (k : ℕ)
    (h : decodeTerminated bytes = .ok (content, k)) :
    ∃ s, bytes = escape content ++ s ∧ k = (escape content).length := by
  -- The recursion follows the decoder: an escape takes two bytes, any other byte one.
  induction bytes using decodeTerminated.induct generalizing content k with
  | case1 | case2 => simp [decodeTerminated] at h
  | case3 rest =>
    cases h
    exact ⟨rest, by simp [escape]⟩
  | case4 rest hne ih =>
    obtain ⟨⟨content', k'⟩, hrest, h⟩ := bind_ok h
    obtain ⟨s, rfl, rfl⟩ := ih content' k' hrest
    cases h
    exact ⟨s, by simp [escape]⟩
  | case5 c rest hzero hff => simp [decodeTerminated, hzero, hff] at h
  | case6 b rest hb ih =>
    rw [decodeTerminated_plain hb] at h
    obtain ⟨⟨content', k'⟩, hrest, h⟩ := bind_ok h
    obtain ⟨s, rfl, rfl⟩ := ih content' k' hrest
    cases h
    exact ⟨s, by simp [escape, hb]⟩

lemma decodeTerminated_faithful : Faithful decodeTerminated encodeTerminated :=
  ⟨decodeTerminated_reads, decodeTerminated_sound⟩

/-- Strings are the escaped strings of UTF-8. -/
lemma decodeString_faithful : Faithful decodeString fun s => encodeTerminated (asBytes s) where
  reads := by
    intro t s
    rw [decodeString, (decodeTerminated_faithful.reads (asBytes t)).bind]
    simp [okOr, bind, Except.bind]
  sound := by
    intro bytes t k h
    obtain ⟨⟨content, used⟩, hcontent, h⟩ := bind_ok h
    obtain ⟨t', ht, h⟩ := bind_ok h
    cases h
    rw [asBytes_of_fromUtf8 (okOr_eq_ok.mp ht)]
    exact decodeTerminated_faithful.sound _ _ _ hcontent

/-! ## Fixed-width payloads -/

lemma decodeBool_faithful : Faithful decodeBool fun b => [if b then 0x01 else 0x00] where
  reads := by
    intro b s
    cases b <;> rfl
  sound := by
    intro bytes b k h
    unfold decodeBool at h
    split at h
    · cases h
    · next c rest =>
      split_ifs at h with h0 h1
      · cases h
        exact ⟨rest, by simp [h0]⟩
      · cases h
        exact ⟨rest, by simp [h1]⟩

lemma decodeUuid_faithful : Faithful decodeUuid UuidWrapper.bytes where
  reads := by
    intro u s
    have htake : (u.bytes ++ s).take 16 = u.bytes := by
      rw [← u.length_eq, take_left]
    rw [decodeUuid]
    simp [htake, u.length_eq]
  sound := by
    intro bytes u k h
    unfold decodeUuid at h
    split at h
    · cases h
    · next hlen =>
      cases h
      exact ⟨bytes.drop 16, (take_append_drop 16 bytes).symm, by
        simp only [length_take]
        omega⟩

lemma decodeGeometry_faithful : Faithful decodeGeometry curveKeyBytes := by
  refine Faithful.of_width 8 (fun w => fromCurveKey (beNat w)) ?_ ?_ ?_ ?_ ?_
  · intro g
    exact length_beBytes _ _
  · intro g
    have hlt : g.curveIndex < 256 ^ 8 := g.curveIndex_lt
    simp only [curveKeyBytes, beNat_beBytes, Nat.mod_eq_of_lt hlt]
    exact g.fromCurveKey_curveIndex
  · intro w hw
    have hlt : beNat w < 256 ^ 8 := hw ▸ beNat_lt w
    rw [curveKeyBytes, curveIndex_fromCurveKey hlt, ← hw, beBytes_beNat]
  · intro bytes hlen
    rw [decodeGeometry, if_neg (by omega)]
  · intro bytes r hlen
    rw [decodeGeometry, if_pos hlen]
    simp

/-! ## Instants, validities and intervals -/

/-- Flipping the sign bit twice changes nothing. -/
lemma flip_flip (t : Int64) : t ^^^ Int64.minValue ^^^ Int64.minValue = t := by
  rw [Int64.xor_assoc, Int64.xor_self, Int64.xor_zero]

@[simp] lemma tsFromAsc_ascTsKey (t : Int64) : tsFromAsc (ascTsKey t) = t := by
  have hlt : (t ^^^ Int64.minValue).toUInt64.toNat < 256 ^ 8 := UInt64.toNat_lt _
  rw [tsFromAsc, ascTsKey, beNat_beBytes, Nat.mod_eq_of_lt hlt, UInt64.ofNat_toNat]
  exact flip_flip t

lemma ascTsKey_tsFromAsc {w : Bytes} (hw : w.length = 8) : ascTsKey (tsFromAsc w) = w := by
  have hlt : beNat w < 2 ^ 64 := by
    have h := beNat_lt w
    rw [hw] at h
    exact h
  have hnat : ((UInt64.ofNat (beNat w)).toInt64).toUInt64.toNat = beNat w := by
    exact UInt64.toNat_ofNat_of_lt' hlt
  rw [ascTsKey, tsFromAsc, flip_flip, hnat, ← hw, beBytes_beNat]

lemma complement_complement (w : Bytes) : (w.map (~~~·)).map (~~~·) = w := by
  rw [map_map]
  exact map_id'' (fun b => UInt8.not_not) w

/-- Validities: the complemented instant and the polarity. -/
lemma decodeValidity_faithful : Faithful decodeValidity fun v =>
      descTsKey v.tsMicros ++ [if v.isAssert then 0x00 else 0x01] where
  reads := by
    intro v s
    have hlen : (descTsKey v.tsMicros).length = 8 := by
      rw [descTsKey, length_map, length_ascTsKey]
    have hts : tsFromAsc ((descTsKey v.tsMicros).map (~~~·)) = v.tsMicros := by
      rw [descTsKey, complement_complement, tsFromAsc_ascTsKey]
    rw [append_assoc, decodeValidity]
    simp only [take_left' hlen, drop_left' hlen, hts, length_append, hlen]
    cases hpol : v.isAssert with
    | false | true => simp [← hpol]
  sound := by
    intro bytes v k h
    unfold decodeValidity at h
    split_ifs at h with hlen
    have hkey : descTsKey (tsFromAsc ((bytes.take 8).map (~~~·))) = bytes.take 8 := by
      rw [descTsKey, ascTsKey_tsFromAsc (by rw [length_map, length_take]; omega),
        complement_complement]
    have hsplit := take_append_drop 8 bytes
    cases hrest : bytes.drop 8 with
    | nil => simp [hrest] at h
    | cons p rest =>
      simp only [hrest] at h
      rw [hrest] at hsplit
      generalize htsdef : tsFromAsc ((bytes.take 8).map (~~~·)) = ts at h hkey
      have hdone : ∀ pol : Bool, p = (if pol then 0x00 else 0x01) →
          ∃ s, bytes = (descTsKey (ValiditySlot.fromStored ts pol).tsMicros ++
              [if (ValiditySlot.fromStored ts pol).isAssert then 0x00 else 0x01]) ++ s ∧
            9 = (descTsKey (ValiditySlot.fromStored ts pol).tsMicros ++
              [if (ValiditySlot.fromStored ts pol).isAssert then 0x00 else 0x01]).length := by
        intro pol hp
        rw [ValiditySlot.tsMicros_fromStored, ValiditySlot.isAssert_fromStored, hkey, ← hp]
        refine ⟨rest, ?_, ?_⟩
        · rw [append_assoc]
          exact hsplit.symm
        · rw [length_append, length_take, length_singleton]
          omega
      split_ifs at h with h0 h1
      · cases h
        exact hdone true h0
      · cases h
        exact hdone false h1

/-- The bytes of a decoded end. -/
def encodeEnd : IntervalEnd → Bytes
  | .unbounded => [0x01]
  | .at t => 0x02 :: ascTsKey t

lemma decodeIntervalEnd_faithful : Faithful decodeIntervalEnd encodeEnd where
  reads := by
    intro e s
    cases e with
    | unbounded => rfl
    | «at» t =>
      have hlen : ¬ (ascTsKey t ++ s).length < 8 := by
        rw [length_append, length_ascTsKey]
        omega
      rw [encodeEnd, cons_append, decodeIntervalEnd, if_neg (by decide), if_pos rfl,
        if_neg hlen, take_left' (length_ascTsKey t), tsFromAsc_ascTsKey, length_cons,
        length_ascTsKey]
  sound := by
    intro bytes e k h
    cases bytes with
    | nil => cases h
    | cons b rest =>
      rw [decodeIntervalEnd] at h
      split_ifs at h with h1 h2 hlen
      · cases h
        exact ⟨rest, by simp [encodeEnd, h1]⟩
      · cases h
        have hkey : ascTsKey (tsFromAsc (rest.take 8)) = rest.take 8 :=
          ascTsKey_tsFromAsc (by rw [length_take]; omega)
        refine ⟨rest.drop 8, ?_, ?_⟩
        · rw [encodeEnd, hkey, cons_append, take_append_drop, h2]
        · rw [encodeEnd, length_cons, length_ascTsKey]

lemma exists_toLo (lo : Lo) : ∃ e : IntervalEnd, e.toLo = lo := by
  cases lo
  exacts [⟨.unbounded, rfl⟩, ⟨.at _, rfl⟩]

lemma exists_toHi (hi : Hi) : ∃ e : IntervalEnd, e.toHi = hi := by
  cases hi
  exacts [⟨.at _, rfl⟩, ⟨.unbounded, rfl⟩]

lemma encodeIntervalBody_range {lo hi : IntervalEnd} (h : ¬ Inverted lo.toLo hi.toHi) :
    encodeIntervalBody (Interval.range lo.toLo hi.toHi) =
      0x02 :: (encodeEnd lo ++ encodeEnd hi) := by
  rw [Interval.range, dif_neg h]
  cases lo <;> cases hi <;> rfl

lemma isEmpty_range (lo : Lo) (hi : Hi) :
    (Interval.range lo hi).isEmpty = true ↔ Interval.Inverted lo hi := by
  unfold Interval.range
  split
  · next h => exact ⟨fun _ => h, fun _ => rfl⟩
  · next h => exact ⟨fun h' => by simp [Interval.isEmpty] at h', fun h' => absurd h' h⟩

/-- Intervals: empty, or two ends that are not inverted. -/
lemma decodeInterval_faithful : Faithful decodeInterval encodeIntervalBody where
  reads := by
    rintro ⟨form, lawful⟩ s
    cases form with
    | empty => rfl
    | range lo hi =>
      obtain ⟨lo, rfl⟩ := exists_toLo lo
      obtain ⟨hi, rfl⟩ := exists_toHi hi
      have hrange : (⟨.range lo.toLo hi.toHi, lawful⟩ : Interval) = .range lo.toLo hi.toHi := by
        rw [Interval.range, dif_neg lawful]
      have hne : ¬ (range lo.toLo hi.toHi).isEmpty = true := by
        rw [isEmpty_range]
        exact lawful
      rw [hrange, encodeIntervalBody_range lawful, cons_append, append_assoc,
        decodeInterval, if_neg (by decide), if_pos rfl,
        (decodeIntervalEnd_faithful.reads _).bind]
      simp only [drop_left]
      rw [(decodeIntervalEnd_faithful.reads _).bind]
      simp only [if_neg hne, length_cons, length_append]
      congr 2
      omega
  sound := by
    intro bytes iv k h
    cases bytes with
    | nil => cases h
    | cons b rest =>
      rw [decodeInterval] at h
      split_ifs at h with h1 h2
      · cases h
        exact ⟨rest, by simp [encodeIntervalBody, EMPTY, ends, h1]⟩
      · obtain ⟨⟨lo, loUsed⟩, hlo, h⟩ := bind_ok h
        obtain ⟨s, rfl, rfl⟩ := decodeIntervalEnd_faithful.sound _ _ _ hlo
        obtain ⟨⟨hi, hiUsed⟩, hhi, h⟩ := bind_ok h
        simp only [drop_left] at hhi
        obtain ⟨t, rfl, rfl⟩ := decodeIntervalEnd_faithful.sound _ _ _ hhi
        dsimp only at h
        split_ifs at h with hempty
        cases h
        rw [isEmpty_range] at hempty
        rw [encodeIntervalBody_range hempty]
        refine ⟨t, by simp [h2], ?_⟩
        rw [length_cons, length_append]
        omega

/-! ## Regexes and vectors -/

/-- The flags are the bytes within the mask. -/
lemma fromBits_eq_some {b : UInt8} {flags : RegexFlags} :
    RegexFlags.fromBits b = some flags ↔ flags.bits = b := by
  unfold RegexFlags.fromBits
  split
  · next h =>
    constructor
    · rintro ⟨⟩
      rfl
    · rintro rfl
      rfl
  · next h =>
    constructor
    · rintro ⟨⟩
    · rintro rfl
      exact absurd flags.masked h

lemma decodeRegex_faithful :
    Faithful decodeRegex fun r => r.flags.bits :: encodeTerminated (asBytes r.pattern) where
  reads := by
    intro r s
    have hflags : okOr (RegexFlags.fromBits r.flags.bits) .badRegexFlags = .ok r.flags :=
      okOr_eq_ok.mpr (fromBits_eq_some.mpr rfl)
    rw [cons_append, decodeRegex, hflags]
    simp only [bind, Except.bind, decodeString_faithful.reads r.pattern s, length_cons]
    rw [Nat.add_comm]
  sound := by
    intro bytes r k h
    cases bytes with
    | nil => cases h
    | cons b rest =>
      obtain ⟨flags, hflags, h⟩ := bind_ok h
      obtain ⟨⟨pattern, used⟩, hpattern, h⟩ := bind_ok h
      obtain ⟨s, rfl, rfl⟩ := decodeString_faithful.sound _ _ _ hpattern
      cases h
      have hbits : flags.bits = b := fromBits_eq_some.mp (okOr_eq_ok.mp hflags)
      refine ⟨s, by simp [hbits], ?_⟩
      rw [length_cons, Nat.add_comm]

/-- Components are read back one by one. -/
lemma decodeComponents_reads (cs : List VectorComponent) :
    Reads (decodeComponents cs.length) (cs.map value)
      (cs.flatMap fun c => c.num.encodeKey) := by
  induction cs with
  | nil => intro s; rfl
  | cons c cs ih =>
    intro s
    rw [length_cons, decodeComponents, flatMap_cons, append_assoc,
      (decodeNum_faithful.reads c.num).bind]
    simp [asFloat_num, okOr, bind, Except.bind, ih s, length_append, map_cons]

/-- A float number is the component made of it. -/
lemma float_of_asFloat {n : Num} {f : F64} (h : n.asFloat = some f) :
    (admitComponent f).num = n := by
  obtain ⟨repr, lawful⟩ := n
  cases repr with
  | int v => cases h
  | float v =>
    cases h
    have hnorm : Num.normalizeFloat f = f := Num.normalizeFloat_of_canonical lawful
    simp [num, admitComponent, Num.float, hnorm]

lemma decodeComponents_sound (count : ℕ) (bytes : Bytes) (floats : List F64) (k : ℕ)
    (h : decodeComponents count bytes = .ok (floats, k)) :
    floats.length = count ∧
      ∃ s, bytes = ((floats.map admitComponent).flatMap fun c => c.num.encodeKey) ++ s ∧
        k = ((floats.map admitComponent).flatMap fun c => c.num.encodeKey).length := by
  induction count generalizing bytes floats k with
  | zero =>
    cases h
    exact ⟨rfl, bytes, by simp⟩
  | succ count ih =>
    obtain ⟨⟨n, nused⟩, hn, h⟩ := bind_ok h
    obtain ⟨s, rfl, rfl⟩ := decodeNum_faithful.sound _ _ _ hn
    obtain ⟨f, hf, h⟩ := bind_ok h
    obtain ⟨⟨fs, used⟩, hfs, h⟩ := bind_ok h
    rw [drop_left] at hfs
    obtain ⟨hcount, t, rfl, rfl⟩ := ih _ _ _ hfs
    cases h
    have hnum := float_of_asFloat (okOr_eq_ok.mp hf)
    refine ⟨by simp [hcount], t, ?_, ?_⟩
    · simp [hnum]
    · simp [hnum]

/-- Vectors: the dimension and so many components. -/
lemma decodeVector_faithful : Faithful decodeVector fun v =>
      beBytes 4 v.dimension ++ v.components.flatMap fun c => c.num.encodeKey where
  reads := by
    intro v s
    have hdim : beNat (beBytes 4 v.dimension) = v.components.length := by
      rw [beNat_beBytes]
      exact Nat.mod_eq_of_lt v.length_lt
    have hback : (v.components.map value).map admitComponent =
        v.components := by
      rw [map_map]
      exact (map_congr_left fun c _ => c.admitComponent_value).trans (map_id _)
    have hnew : Vector.tryNew (v.components.map value) = some v := by
      have hlt := v.length_lt
      unfold Vector.tryNew
      rw [dif_pos (by rw [hback]; exact hlt)]
      simp [hback]
    rw [append_assoc, decodeVector, take_left' (length_beBytes 4 _),
      drop_left' (length_beBytes 4 _), hdim, (decodeComponents_reads v.components).bind]
    simp [hnew, okOr, bind, Except.bind, length_append, length_beBytes]
  sound := by
    intro bytes v k h
    unfold decodeVector at h
    split_ifs at h with hlen
    obtain ⟨⟨floats, used⟩, hfloats, h⟩ := bind_ok h
    obtain ⟨v', hnew, h⟩ := bind_ok h
    cases h
    obtain ⟨hcount, s, hs, hused⟩ := decodeComponents_sound _ _ _ _ hfloats
    have hcomponents : v.components = floats.map admitComponent := by
      rw [Vector.tryNew] at hnew
      split at hnew
      · cases hnew
        rfl
      · cases hnew
    have hwidth : (bytes.take 4).length = 4 := by
      rw [length_take]
      omega
    have hdim : beBytes 4 v.dimension = bytes.take 4 := by
      have hback := beBytes_beNat (bytes.take 4)
      rw [hwidth] at hback
      rw [Vector.dimension, hcomponents, length_map, hcount, hback]
    rw [hdim, hcomponents]
    refine ⟨s, ?_, ?_⟩
    · rw [append_assoc, ← hs, take_append_drop]
    · rw [length_append, hwidth, hused]

end Kyzo
