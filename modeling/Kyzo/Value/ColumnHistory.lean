import Kyzo.Value.ArenaRuns
import Kyzo.Value.Column

/-!
# Columns against the history of their arena

An arena has had one dictionary per epoch.  Against that history a stamp, a remap, an observer and
a column each have a meaning that no later interning or seal changes.  This file states the
meanings, shows that they last, and shows that the doors of the columns keep them: a push adds the
value of the stamp, a gather through the remap of the column's epoch keeps every value and leaves
only sealed codes, and an observer of the epoch that sees as far as the extent reads every value.
-/

namespace Kyzo

open List WordColumn Nat

lemma proveShared_eq_ok_iff {arena epoch arena' epoch' : ℕ} :
    proveShared arena epoch arena' epoch' = .ok () ↔ arena = arena' ∧ epoch = epoch' := by
  unfold proveShared
  split_ifs with harena hepoch
  · exact iff_of_false (fun h => by cases h) fun h => harena h.1
  · exact iff_of_false (fun h => by cases h) fun h => hepoch h.2
  · exact iff_of_true rfl ⟨not_not.mp harena, not_not.mp hepoch⟩

/-- The dictionaries an arena has had: for every past epoch the one it was sealed with, for the
current epoch the live one. -/
structure History where
  id : ℕ
  /-- The current epoch. -/
  now : ℕ
  /-- The dictionary of an epoch. -/
  dict : ℕ → Naive
  /-- Codes fit the code space. -/
  len_le : ∀ e ≤ now, (dict e).len ≤ u32Max
  ascending : ∀ e ≤ now, Ascending compare (dict e).sealed

variable {sc : StampedCode} {o : Observer} {b : Bytes} {m : EpochRemap}

namespace History

variable {w w' : History}

/-- The history of the same arena at a later time: past dictionaries are final, the current one
keeps its sealed values and only grows. -/
structure Ages (w w' : History) : Prop where
  id_eq : w'.id = w.id
  /-- Time goes on. -/
  now_le : w.now ≤ w'.now
  past : ∀ e < w.now, w'.dict e = w.dict e
  /-- Sealed values of the current epoch. -/
  sealed_eq : (w'.dict w.now).sealed = (w.dict w.now).sealed
  /-- All values of the current epoch. -/
  values_isPrefix : (w.dict w.now).values <+: (w'.dict w.now).values

lemma Ages.refl (w : History) : w.Ages w :=
  ⟨rfl, le_rfl, fun _ _ => rfl, rfl, prefix_rfl⟩

lemma Ages.dict (h : w.Ages w') {e : ℕ} (he : e ≤ w.now) :
    (w'.dict e).sealed = (w.dict e).sealed ∧ (w.dict e).values <+: (w'.dict e).values := by
  rcases lt_or_eq_of_le he with hlt | rfl
  · rw [h.past e hlt]
    exact ⟨rfl, prefix_rfl⟩
  · exact ⟨h.sealed_eq, h.values_isPrefix⟩

lemma Ages.getElem? (h : w.Ages w') {e code : ℕ} (he : e ≤ w.now)
    (hb : (w.dict e).values[code]? = some b) : (w'.dict e).values[code]? = some b := by
  obtain ⟨hlt, rfl⟩ := List.getElem_of_getElem? hb
  exact prefix_iff_getElem?.mp (h.dict he).2 code hlt

/-! ## Stamps, observers and remaps -/

/-- A stamp of this arena for a value. -/
structure Stamped (w : History) (sc : StampedCode) (b : Bytes) : Prop where
  arena_eq : sc.arena = w.id
  epoch_le : sc.epoch ≤ w.now
  value_eq : (w.dict sc.epoch).values[sc.code]? = some b

lemma Stamped.ages (h : w.Stamped sc b) (hw : w.Ages w') : w'.Stamped sc b :=
  ⟨h.arena_eq.trans hw.id_eq.symm, h.epoch_le.trans hw.now_le, hw.getElem? h.epoch_le h.value_eq⟩

/-- An observer of this arena: it sees the sealed values of its epoch and a first part of the
tail. -/
structure Observes (w : History) (o : Observer) : Prop where
  arena_eq : o.arena = w.id
  epoch_le : o.epoch ≤ w.now
  /-- What it sees. -/
  view : ∃ n, o.view.Represents n ∧ n.sealed = (w.dict o.epoch).sealed ∧
    n.values <+: (w.dict o.epoch).values

lemma Observes.ages (h : w.Observes o) (hw : w.Ages w') : w'.Observes o := by
  obtain ⟨n, hn, hsealed, hvalues⟩ := h.view
  obtain ⟨hsealed', hvalues'⟩ := hw.dict h.epoch_le
  exact ⟨h.arena_eq.trans hw.id_eq.symm, h.epoch_le.trans hw.now_le, n, hn,
    hsealed.trans hsealed'.symm, hvalues.trans hvalues'⟩

/-- The remap of a seal of this arena: every code of the source epoch goes to the sealed code of the
same value. -/
structure Carries (w : History) (m : EpochRemap) : Prop where
  arena_eq : m.arena = w.id
  /-- The next epoch. -/
  target_eq : m.target = m.source + 1
  /-- The seal was made. -/
  source_lt : m.source < w.now
  /-- Where codes go. -/
  applyRaw_ok : ∀ code b, (w.dict m.source).values[code]? = some b →
    ∃ code', m.applyRaw code = .ok code' ∧ (w.dict m.target).sealed[code']? = some b

lemma Carries.target_le (h : w.Carries m) : m.target ≤ w.now :=
  h.target_eq ▸ h.source_lt

lemma Carries.ages (h : w.Carries m) (hw : w.Ages w') : w'.Carries m := by
  refine ⟨h.arena_eq.trans hw.id_eq.symm, h.target_eq, h.source_lt.trans_le hw.now_le, ?_⟩
  rw [hw.past m.source h.source_lt, (hw.dict h.target_le).1]
  exact h.applyRaw_ok

lemma getElem?_values_of_sealed {n : Naive} {code : ℕ}
    (h : n.sealed[code]? = some b) : n.values[code]? = some b := by
  obtain ⟨hlt, -⟩ := List.getElem_of_getElem? h
  rw [Naive.values, getElem?_append_left hlt, h]

/-! ## Domains -/

/-- The domain of a column whose codes are these: it covers every code and reaches no further than
the dictionary of its epoch. -/
structure Encloses (w : History) (d : Domain) (codes : List ℕ) : Prop where
  arena_eq : d.arena = w.id
  epoch_le : d.epoch ≤ w.now
  covered : ∀ code ∈ codes, code < d.extent
  /-- The extent is within the dictionary. -/
  extent_le : d.extent ≤ (w.dict d.epoch).len

variable {codes : List ℕ} {d : Domain}

variable (h : w.Encloses d codes)
include h

lemma Encloses.ages (hw : w.Ages w') : w'.Encloses d codes := by
  refine ⟨h.arena_eq.trans hw.id_eq.symm, h.epoch_le.trans hw.now_le, h.covered, ?_⟩
  have hlen := (hw.dict h.epoch_le).2.length_le
  rw [View.Represents.length_values, View.Represents.length_values] at hlen
  exact h.extent_le.trans hlen

omit h in
lemma Observes.forObserver (h : w.Observes o) : w.Encloses (.forObserver o) [] :=
  ⟨h.arena_eq, h.epoch_le, fun _ hcode => absurd hcode not_mem_nil, zero_le _⟩

lemma Encloses.absorbStamp {d' : Domain} (hsc : w.Stamped sc b) (hok : d.absorbStamp sc = .ok d') :
    d'.epoch = d.epoch ∧ sc.epoch = d.epoch ∧ w.Encloses d' (codes ++ [sc.code]) := by
  obtain ⟨⟨⟩, hshared, hok⟩ := bind_ok hok
  obtain ⟨-, hepoch⟩ := proveShared_eq_ok_iff.mp hshared
  split_ifs at hok with hfull
  cases hok
  refine ⟨rfl, hepoch.symm, h.arena_eq, h.epoch_le, ?_, ?_⟩
  · exact forall_mem_append.mpr ⟨fun code hcode => lt_max_of_lt_left (h.covered code hcode),
      forall_mem_singleton.mpr (lt_max_of_lt_right (lt_succ_self _))⟩
  · refine max_le h.extent_le ?_
    have hlt := (List.getElem_of_getElem? hsc.value_eq).1
    rw [View.Represents.length_values, ← hepoch] at hlt
    exact hlt

lemma Encloses.absorbStamp_foreign {d' : Domain}
    (hsc : sc.arena ≠ w.id) : d.absorbStamp sc ≠ .ok d' := by
  intro hok
  obtain ⟨⟨⟩, hshared, -⟩ := bind_ok hok
  exact hsc ((proveShared_eq_ok_iff.mp hshared).1.symm.trans h.arena_eq)

lemma Encloses.carried (hm : w.Carries m) (hsource : m.source = d.epoch) :
    m.target = d.epoch + 1 ∧ proveShared d.arena d.epoch m.arena m.source = .ok () :=
  ⟨by rw [hm.target_eq, hsource],
    proveShared_eq_ok_iff.mpr ⟨h.arena_eq.trans hm.arena_eq.symm, hsource.symm⟩⟩

omit h in
lemma foldl_extent_spec (hfit : ∀ code ∈ codes, code < u32Max) (extent : ℕ) :
    let result := codes.foldl (fun extent n => max extent (succSat n)) extent
    extent ≤ result ∧ (∀ code ∈ codes, code < result) ∧
      ∀ bound, extent ≤ bound → (∀ code ∈ codes, code < bound) → result ≤ bound := by
  induction codes generalizing extent with
  | nil => exact ⟨le_rfl, by simp, fun _ h _ => h⟩
  | cons code codes ih =>
    obtain ⟨hcode, hrest⟩ := forall_mem_cons.mp hfit
    have hsucc : succSat code = code + 1 := min_eq_left hcode
    obtain ⟨hle, hcovers, hleast⟩ := ih hrest (max extent (succSat code))
    rw [hsucc] at hle hcovers hleast
    rw [foldl_cons, hsucc]
    refine ⟨(le_max_left _ _).trans hle, ?_, ?_⟩
    · refine forall_mem_cons.mpr ⟨?_, hcovers⟩
      exact (le_max_right extent (code + 1)).trans hle
    · intro bound hbound hall
      obtain ⟨hfirst, hall⟩ := forall_mem_cons.mp hall
      exact hleast bound (max_le hbound hfirst) hall

omit h in
lemma encloses_gathered {e : ℕ} (he : e ≤ w.now)
    (hcodes : ∀ code ∈ codes, code < (w.dict e).sealed.length) :
    let extent := codes.foldl (fun extent n => max extent (succSat n)) 0
    w.Encloses ⟨w.id, e, extent⟩ codes ∧ extent ≤ (w.dict e).sealed.length := by
  have hlen : (w.dict e).sealed.length ≤ (w.dict e).len := le_add_right _ _
  have hfit : ∀ code ∈ codes, code < u32Max := fun code hcode =>
    ((hcodes code hcode).trans_le hlen).trans_le (w.len_le e he)
  obtain ⟨-, hcovers, hleast⟩ := foldl_extent_spec hfit 0
  have hbound := hleast (w.dict e).sealed.length (zero_le _) hcodes
  exact ⟨⟨rfl, he, hcovers, hbound.trans hlen⟩, hbound⟩

lemma Encloses.admitTo (ho : w.Observes o) (hepoch : o.epoch = d.epoch)
    (hsees : d.extent ≤ o.view.len) :
    d.admitTo o = .ok () ∧ ∀ code ∈ codes, ∀ b, (w.dict d.epoch).values[code]? = some b →
      o.view.resolve code = .ok b := by
  obtain ⟨n, hn, -, hvalues⟩ := ho.view
  constructor
  · have hshared : proveShared d.arena d.epoch o.arena o.epoch = .ok () :=
      proveShared_eq_ok_iff.mpr ⟨h.arena_eq.trans ho.arena_eq.symm, hepoch.symm⟩
    rw [Domain.admitTo, hshared]
    exact if_neg (not_lt.mpr hsees)
  · intro code hcode b hb
    have hlt : code < n.values.length := by
      rw [View.Represents.length_values, ← hn.len_eq]
      exact (h.covered code hcode).trans_le hsees
    have hget : n.values[code]? = some b := by
      rw [← hb, ← hepoch, getElem?_eq_getElem hlt]
      exact (prefix_iff_getElem?.mp hvalues code hlt).symm
    rw [hn.resolve_eq, Naive.resolve, hget]

omit h

/-! ## Code columns -/

end History

lemma CodeColumn.push_error {c c' : CodeColumn} {e : Denial}
    (h : c.push sc = (.error e, c')) : c' = c := by
  rw [CodeColumn.push] at h
  split at h
  · exact (Prod.mk.inj h).2.symm
  · simp at h

lemma WordColumn.push_error {c c' : WordColumn} {m : Minted} {e : Denial}
    (h : c.push m = (.error e, c')) : c' = c := by
  rw [push] at h
  split at h
  · split at h
    · simp at h
    · exact (Prod.mk.inj h).2.symm
  · split at h
    · exact (Prod.mk.inj h).2.symm
    · split at h
      · exact (Prod.mk.inj h).2.symm
      · simp at h

variable {values : List Bytes}

namespace History

variable {w w' : History}

/-- The column holds the codes of these values. -/
structure HoldsCodes (w : History) (c : CodeColumn) (values : List Bytes) : Prop where
  encloses : w.Encloses c.domain c.codes
  /-- The codes stand for the values, position by position. -/
  reads : Forall₂ (fun code b => (w.dict c.domain.epoch).values[code]? = some b)
    c.codes values

namespace HoldsCodes

variable {c c' : CodeColumn}

lemma ages (h : w.HoldsCodes c values) (hw : w.Ages w') : w'.HoldsCodes c values :=
  ⟨h.encloses.ages hw, h.reads.imp fun _ _ hb => hw.getElem? h.encloses.epoch_le hb⟩

lemma newIn (ho : w.Observes o) : w.HoldsCodes (.newIn o) [] :=
  ⟨ho.forObserver, .nil⟩

variable (h : w.HoldsCodes c values)
include h

lemma push (hsc : w.Stamped sc b)
    (hok : c.push sc = (.ok (), c')) : w.HoldsCodes c' (values ++ [b]) := by
  rw [CodeColumn.push] at hok
  split at hok
  case h_1 => simp at hok
  case h_2 domain hdomain =>
    cases hok
    obtain ⟨hepoch, hsame, hencl⟩ := h.encloses.absorbStamp hsc hdomain
    refine ⟨hencl, ?_⟩
    simp only [hepoch]
    exact rel_append h.reads (.cons (hsame ▸ hsc.value_eq) .nil)

lemma push_foreign (hsc : sc.arena ≠ w.id) : c.push sc ≠ (.ok (), c') := by
  intro hok
  rw [CodeColumn.push] at hok
  split at hok
  case h_1 => simp at hok
  case h_2 domain hdomain => exact h.encloses.absorbStamp_foreign hsc hdomain

/-- **The gather** through the remap of the column's epoch keeps every value and leaves sealed codes
only. -/
theorem gather (hm : w.Carries m) (hsource : m.source = c.domain.epoch) :
    ∃ c', c.gather m = .ok c' ∧ w.HoldsCodes c' values ∧ c'.domain.epoch = c.domain.epoch + 1 ∧
      c'.domain.extent ≤ (w.dict (c.domain.epoch + 1)).sealed.length := by
  obtain ⟨htarget, hshared⟩ := h.encloses.carried hm hsource
  obtain ⟨codes, hcodes, hreads⟩ := mapM_forall₂ h.reads
    fun code b hb => hm.applyRaw_ok code b (hsource ▸ hb)
  have hsealed : ∀ code ∈ codes, code < (w.dict m.target).sealed.length :=
    ((forall₂_and_left _ _).mp
      (hreads.imp fun _ _ hb => ⟨(List.getElem_of_getElem? hb).1, hb⟩)).1
  obtain ⟨hencl, hextent⟩ := encloses_gathered hm.target_le hsealed
  refine ⟨⟨⟨w.id, m.target, _⟩, codes⟩, ?_, ⟨hencl, ?_⟩, htarget, ?_⟩
  · rw [CodeColumn.gather, hshared]
    simp [bind, Except.bind, hcodes, h.encloses.arena_eq]
  · exact hreads.imp fun _ _ hb => getElem?_values_of_sealed hb
  · rw [← htarget]
    exact hextent

/-- **The admission**: an observer of the epoch that sees as far as the extent reads every value. -/
theorem admitCodes (ho : w.Observes o)
    (hepoch : o.epoch = c.domain.epoch) (hsees : c.domain.extent ≤ o.view.len) :
    ∃ adm, c.admitCodes o = .ok adm ∧ ∀ i b, values[i]? = some b → adm.resolve i = .ok b := by
  obtain ⟨henter, hresolve⟩ := h.encloses.admitTo ho hepoch hsees
  refine ⟨⟨c.codes, o, c.domain.extent ≤ o.view.sealedLen⟩, ?_, ?_⟩
  · rw [CodeColumn.admitCodes, henter]
    rfl
  · intro i b hb
    obtain ⟨hi, rfl⟩ := List.getElem_of_getElem? hb
    have hi' : i < c.codes.length := h.reads.length_eq ▸ hi
    rw [AdmittedCodes.resolve, getD_eq_getElem _ _ hi']
    exact hresolve _ (getElem_mem hi') _ (h.reads.get hi' hi)

lemma sorted (ho : w.Observes o) {adm : AdmittedCodes}
    (hadm : c.admitCodes o = .ok adm) (hall : adm.allSealed = true)
    (hvalues : values.Pairwise fun a b => (compare a b).isLE) : c.codes.Pairwise (· ≤ ·) := by
  obtain ⟨⟨⟩, henter, hadm⟩ := bind_ok hadm
  cases hadm
  obtain ⟨⟨⟩, hshared, -⟩ := bind_ok henter
  obtain ⟨-, hepoch⟩ := proveShared_eq_ok_iff.mp hshared
  obtain ⟨n, hn, hsealed, -⟩ := ho.view
  have hextent : c.domain.extent ≤ (w.dict c.domain.epoch).sealed.length := by
    rw [hepoch, ← hsealed, ← hn.sealedLen_eq]
    exact of_decide_eq_true hall
  have hasc := w.ascending c.domain.epoch h.encloses.epoch_le
  rw [pairwise_iff_getElem] at hvalues ⊢
  intro i j hi hj hij
  have hlen := h.reads.length_eq
  -- Every position holds the sealed value of its code.
  have hread : ∀ k (hk : k < c.codes.length), (w.dict c.domain.epoch).sealed[c.codes[k]]? =
      some (values.get ⟨k, hlen ▸ hk⟩) := by
    intro k hk
    have hlt := (h.encloses.covered _ (getElem_mem hk)).trans_le hextent
    have hvalue := h.reads.get hk (hlen ▸ hk)
    rwa [Naive.values, get_eq_getElem, getElem?_append_left hlt] at hvalue
  obtain ⟨hci, hvi⟩ := List.getElem_of_getElem? (hread i hi)
  obtain ⟨hcj, hvj⟩ := List.getElem_of_getElem? (hread j hj)
  have hle := hvalues i j (hlen ▸ hi) (hlen ▸ hj) hij
  rw [get_eq_getElem] at hvi hvj
  rw [← hvi, ← hvj, compare_getElem hasc hci hcj] at hle
  exact Nat.isLE_compare.mp hle

end HoldsCodes

end History

/-! ## Words -/

namespace Word

/-- A word for a value: it holds the bytes, or the code of the bytes among these values. -/
structure Reads (values : List Bytes) (x : Word) (b : Bytes) : Prop where
  /-- The cell has its full width. -/
  rest_length : x.rest.length = inlineMax
  /-- What it holds. -/
  value_eq : x.inlineCanonical = some b ∨ ∃ code, x.code = some code ∧ values[code]? = some b

variable {x : Word} {code : ℕ}

lemma code_eq_none (h : x.inlineCanonical = some b) : x.code = none := by
  unfold inlineCanonical at h
  unfold code
  split_ifs at h with hinline
  rw [if_pos hinline]

lemma inlineCanonical_eq_none (h : x.code = some code) : x.inlineCanonical = none := by
  unfold Word.code at h
  unfold inlineCanonical
  split_ifs at h with hinline
  rw [if_neg hinline]

lemma Reads.code_lt {values : List Bytes} (h : x.Reads values b) :
    ∀ code, x.code = some code → code < values.length := by
  intro code hcode
  rcases h.value_eq with hinline | ⟨code', hcode', hvalue⟩
  · rw [code_eq_none hinline] at hcode
    cases hcode
  · cases hcode.symm.trans hcode'
    exact (List.getElem_of_getElem? hvalue).1

lemma code_of_bytes {tag : UInt8} {pre post : Bytes} (hpre : pre.length = 4)
    (hcode : code ≤ u32Max) :
    Word.code ⟨tag, lenOutOfLine, pre ++ beBytes 4 code ++ post⟩ = some code := by
  have hbytes : ((pre ++ beBytes 4 code ++ post).drop 4).take 4 = beBytes 4 code := by
    rw [append_assoc, drop_left' hpre, take_left' (length_beBytes 4 code)]
  have hfit : code < 256 ^ 4 := lt_of_le_of_lt hcode (by decide)
  simp only [Word.code, isInline, ne_eq, not_true_eq_false, decide_false, Bool.false_eq_true,
    if_false, hbytes, beNat_beBytes, mod_eq_of_lt hfit]

/-- **A word is gathered** into a word for the same value. -/
theorem Reads.gathered {values sealed : List Bytes} (h : x.Reads values b)
    (hfit : sealed.length ≤ u32Max) (hm : ∀ code b, values[code]? = some b →
      ∃ code', m.applyRaw code = .ok code' ∧ sealed[code']? = some b) :
    ∃ y, x.gathered m = .ok y ∧ y.Reads sealed b := by
  rcases h.value_eq with hinline | ⟨code, hcode, hvalue⟩
  · refine ⟨x, ?_, h.rest_length, .inl hinline⟩
    rw [Word.gathered, code_eq_none hinline]
  · obtain ⟨code', hraw, hvalue'⟩ := hm code b hvalue
    have hle : code' ≤ u32Max := ((List.getElem_of_getElem? hvalue').1.trans_le hfit).le
    refine ⟨{ x with rest := x.rest.take 4 ++ beBytes 4 code' ++ x.rest.drop 8 }, ?_, ?_, ?_⟩
    · rw [Word.gathered, hcode]
      simp [hraw, bind, Except.bind]
    · simp [h.rest_length, inlineMax]
    · refine .inr ⟨code', ?_, hvalue'⟩
      have hmark : x.len = lenOutOfLine := by
        unfold Word.code isInline at hcode
        split_ifs at hcode with hmark
        simpa using hmark
      rw [hmark]
      exact code_of_bytes (by simp [h.rest_length, inlineMax]) hle

end Word

namespace History

variable {w w' : History}

/-- A minted word of this arena for a value. -/
structure MintedFor (w : History) (m : Minted) (b : Bytes) : Prop where
  /-- The cell has its full width. -/
  rest_length : m.value.rest.length = inlineMax
  /-- It holds the bytes, or the code of a stamp for them. -/
  value_eq : m.stamp = none ∧ m.value.inlineCanonical = some b ∨
    ∃ sc, m.stamp = some sc ∧ m.value.code = some sc.code ∧ w.Stamped sc b

lemma MintedFor.ages {m : Minted} (h : w.MintedFor m b) (hw : w.Ages w') : w'.MintedFor m b := by
  refine ⟨h.rest_length, h.value_eq.imp_right ?_⟩
  exact fun ⟨sc, hstamp, hcode, hsc⟩ => ⟨sc, hstamp, hcode, hsc.ages hw⟩

/-! ## Word columns -/

/-- The column holds words for these values. -/
structure HoldsWords (w : History) (c : WordColumn) (values : List Bytes) : Prop where
  encloses : w.Encloses c.domain (c.words.filterMap Word.code)
  reads : Forall₂ (Word.Reads (w.dict c.domain.epoch).values) c.words values

namespace HoldsWords

variable {c c' : WordColumn}

variable (h : w.HoldsWords c values)
include h

lemma ages (hw : w.Ages w') : w'.HoldsWords c values := by
  refine ⟨h.encloses.ages hw, h.reads.imp fun x b hx => ⟨hx.rest_length, hx.value_eq.imp_right ?_⟩⟩
  exact fun ⟨code, hcode, hvalue⟩ => ⟨code, hcode, hw.getElem? h.encloses.epoch_le hvalue⟩

omit h in
lemma newIn (ho : w.Observes o) : w.HoldsWords (.newIn o) [] :=
  ⟨ho.forObserver, .nil⟩

lemma push {m : Minted} (hm : w.MintedFor m b)
    (hok : c.push m = (.ok (), c')) : w.HoldsWords c' (values ++ [b]) := by
  rcases hm.value_eq with ⟨hstamp, hinline⟩ | ⟨sc, hstamp, hcode, hsc⟩
  · simp only [WordColumn.push, hstamp] at hok
    split at hok
    case isFalse => simp at hok
    cases hok
    refine ⟨?_, rel_append h.reads (.cons ⟨hm.rest_length, .inl hinline⟩ .nil)⟩
    simpa [Word.code_eq_none hinline] using h.encloses
  · simp only [WordColumn.push, hstamp, hcode, ne_eq, not_true_eq_false, if_false] at hok
    split at hok
    case h_1 => simp at hok
    case h_2 domain hdomain =>
      cases hok
      obtain ⟨hepoch, hsame, hencl⟩ := h.encloses.absorbStamp hsc hdomain
      refine ⟨by simpa [hcode] using hencl, ?_⟩
      simp only [hepoch]
      have hvalue := hsc.value_eq
      rw [hsame] at hvalue
      exact rel_append h.reads
        (.cons ⟨hm.rest_length, .inr ⟨sc.code, hcode, hvalue⟩⟩ .nil)

lemma push_foreign {m : Minted}
    (hstamp : m.stamp = some sc) (hsc : sc.arena ≠ w.id) : c.push m ≠ (.ok (), c') := by
  intro hok
  simp only [WordColumn.push, hstamp] at hok
  split_ifs at hok
  · simp at hok
  · split at hok
    case h_1 => simp at hok
    case h_2 domain hdomain => exact h.encloses.absorbStamp_foreign hsc hdomain

omit h in
lemma extentOf_eq (words : List Word) : extentOf words =
    (words.filterMap Word.code).foldl (fun extent n => max extent (succSat n)) 0 := by
  rw [foldl_filterMap]
  refine congrArg (fun f => words.foldl f 0) (funext fun extent => funext fun x => ?_)
  cases x.code <;> rfl

/-- **The gather** through the remap of the column's epoch keeps every value and leaves sealed codes
only. -/
theorem gather (hm : w.Carries m) (hsource : m.source = c.domain.epoch) :
    ∃ c', c.gather m = .ok c' ∧ w.HoldsWords c' values ∧ c'.domain.epoch = c.domain.epoch + 1 ∧
      c'.domain.extent ≤ (w.dict (c.domain.epoch + 1)).sealed.length := by
  obtain ⟨htarget, hshared⟩ := h.encloses.carried hm hsource
  have hfit : (w.dict m.target).sealed.length ≤ u32Max :=
    (le_add_right _ _).trans (w.len_le m.target hm.target_le)
  obtain ⟨words, hwords, hreads⟩ := mapM_forall₂ h.reads
    fun x b hx => hx.gathered hfit (hsource ▸ hm.applyRaw_ok)
  have hsealed : ∀ code ∈ words.filterMap Word.code,
      code < (w.dict m.target).sealed.length := by
    intro code hcode
    obtain ⟨x, hx, hxcode⟩ := mem_filterMap.mp hcode
    have hall := (forall₂_and_left _ _).mp (hreads.imp fun _ _ hy => ⟨hy.code_lt, hy⟩)
    exact hall.1 x hx code hxcode
  obtain ⟨hencl, hextent⟩ := encloses_gathered hm.target_le hsealed
  refine ⟨⟨⟨w.id, m.target, _⟩, words⟩, ?_, ⟨hencl, ?_⟩, htarget, ?_⟩
  · rw [WordColumn.gather, hshared]
    simp [bind, Except.bind, hwords, h.encloses.arena_eq, extentOf_eq]
  · refine hreads.imp fun x b hx => ⟨hx.rest_length, hx.value_eq.imp_right ?_⟩
    exact fun ⟨code, hcode, hvalue⟩ => ⟨code, hcode, getElem?_values_of_sealed hvalue⟩
  · rw [← htarget]
    exact hextent

/-- **The admission**: an observer of the epoch that sees as far as the extent reads every value. -/
theorem admitWords (ho : w.Observes o)
    (hepoch : o.epoch = c.domain.epoch) (hsees : c.domain.extent ≤ o.view.len) :
    ∃ adm, c.admitWords o = .ok adm ∧ ∀ i b, values[i]? = some b → adm.canonical i = .ok b := by
  obtain ⟨henter, hresolve⟩ := h.encloses.admitTo ho hepoch hsees
  refine ⟨⟨c.words, o⟩, ?_, ?_⟩
  · rw [WordColumn.admitWords, henter]
    rfl
  · intro i b hb
    obtain ⟨hi, rfl⟩ := List.getElem_of_getElem? hb
    have hi' : i < c.words.length := h.reads.length_eq ▸ hi
    rw [AdmittedWords.canonical, getElem?_eq_getElem hi']
    have hx : c.words[i].Reads (w.dict c.domain.epoch).values values[i] := h.reads.get hi' hi
    rcases hx.value_eq with hinline | ⟨code, hcode, hvalue⟩
    · simp [hinline]
    · simp only [Word.inlineCanonical_eq_none hcode, hcode]
      exact hresolve code (mem_filterMap.mpr ⟨_, getElem_mem hi', hcode⟩) _ hvalue

end HoldsWords

end History

end Kyzo
