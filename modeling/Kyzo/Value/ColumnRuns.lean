import Kyzo.Lib.Runs
import Kyzo.Value.ColumnHistory

/-!
# Columns along runs of their arena

The value plane of one arena as a state machine: values are interned and minted, epochs are sealed,
snapshots taken, columns opened, filled and gathered, in any order and from any of the stamps,
remaps and observers handed out before.  Along every run a column reads as the values pushed into
it, whatever seals it was gathered through.
-/

namespace Kyzo

open Option Function List UInt8 Word Naive

/-! ## The history of an arena -/

variable {m : EpochRemap} {w : History} {a : Arena}

namespace History

/-- The history ends with the dictionary the arena has now. -/
structure Of (w : History) (a : Arena) : Prop where
  id_eq : w.id = a.id
  now_eq : w.now = a.epoch
  /-- The live dictionary. -/
  simulates : a.Simulates (w.dict w.now)

/-- The history with another dictionary for the current or the next epoch. -/
def set (w : History) (now : ℕ) (hnow : now ≤ w.now + 1) (n : Naive) (hlen : n.len ≤ u32Max)
    (hasc : Ascending compare n.sealed) : History where
  id := w.id
  now := now
  dict := update w.dict now n
  len_le := by
    intro e he
    rcases Nat.lt_or_eq_of_le he with hlt | rfl
    · rw [update_of_ne hlt.ne]
      exact w.len_le e (by omega)
    · rwa [update_self]
  ascending := by
    intro e he
    rcases Nat.lt_or_eq_of_le he with hlt | rfl
    · rw [update_of_ne hlt.ne]
      exact w.ascending e (by omega)
    · rwa [update_self]

/-- A fresh arena has an empty history. -/
def new (id : ℕ) : History where
  id := id
  now := 0
  dict := fun _ => Naive.new
  len_le := fun _ _ => by decide
  ascending := fun _ _ => List.Pairwise.nil

lemma of_new (id : ℕ) : (new id).Of (Arena.new id) := ⟨rfl, rfl, Arena.simulates_new id⟩

lemma Of.frame (h : w.Of a) : w.Observes a.frame := by
  have hepoch : a.frame.epoch = w.now := h.now_eq.symm
  refine ⟨h.id_eq.symm, hepoch.le, w.dict w.now, h.simulates.represents, ?_, ?_⟩
  · rw [hepoch]
  · rw [hepoch]

lemma Of.snapshot (h : w.Of a) : w.Observes a.snapshot.1 ∧ w.Of a.snapshot.2 := by
  obtain ⟨hsim, hrep⟩ := h.simulates.snapshot
  have hepoch : a.snapshot.1.epoch = w.now := h.now_eq.symm
  refine ⟨⟨h.id_eq.symm, hepoch.le, w.dict w.now, hrep, ?_, ?_⟩, h.id_eq, h.now_eq, hsim⟩
  · rw [hepoch]
  · rw [hepoch]

lemma sealed_intern (n : Naive) (value : Bytes) : (n.intern value).2.sealed = n.sealed := by
  unfold intern
  split_ifs <;> rfl

lemma Of.intern (h : w.Of a) (value : Bytes) : ∃ w', w.Ages w' ∧ w'.Of (a.intern value).2 ∧
      ∀ sc, (a.intern value).1 = .ok sc → w'.Stamped sc value := by
  have hepoch := (a.intern_frame value).1
  obtain ⟨a', hid, ⟨-, hint, hsim⟩ | ⟨hint, hsim⟩⟩ := h.simulates.intern value
  · rw [hint] at hepoch ⊢
    refine ⟨w, .refl w, ⟨h.id_eq.trans hid.symm, h.now_eq.trans hepoch.symm, hsim⟩, ?_⟩
    intro sc hsc
    cases hsc
  · rw [hint] at hepoch ⊢
    let n := (w.dict w.now).intern value
    have hself : (update w.dict w.now n.2) w.now = n.2 := update_self ..
    refine ⟨w.set w.now (Nat.le_succ _) n.2 hsim.len_le hsim.represents.sealed_ascending,
      ⟨rfl, le_rfl, ?_, ?_, ?_⟩, ⟨h.id_eq.trans hid.symm, h.now_eq.trans hepoch.symm, ?_⟩, ?_⟩
    · intro e he
      exact update_of_ne he.ne _ _
    · exact (congrArg sealed hself).trans (sealed_intern _ value)
    · show _ <+: ((update w.dict w.now n.2) w.now).values
      rw [hself]
      exact values_intern _ value
    · show a'.Simulates ((update w.dict w.now n.2) w.now)
      rw [hself]
      exact hsim
    · intro sc hsc
      cases hsc
      refine ⟨h.id_eq.symm, h.now_eq.ge, ?_⟩
      show ((update w.dict w.now n.2) a.epoch).values[n.1]? = some value
      rw [← h.now_eq, hself]
      exact getElem?_intern _ value

lemma Of.sealEpoch (h : w.Of a) (hepoch : a.epoch + 1 < 2 ^ 64) :
    ∃ w' m, w.Ages w' ∧ w'.Of a.sealEpoch.2 ∧ a.sealEpoch.1 = .ok m ∧ w'.Carries m ∧
      m.source = a.epoch ∧ a.sealEpoch.2.epoch = a.epoch + 1 := by
  obtain ⟨a', hseal, hid, -, hnext, hsim⟩ := h.simulates.sealEpoch hepoch
  rw [hseal]
  let n := (w.dict w.now).sealEpoch.2
  let dict := update w.dict (w.now + 1) n
  have hself : dict (w.now + 1) = n := update_self ..
  have hpast : ∀ e ≤ w.now, dict e = w.dict e := fun e he =>
    update_of_ne (by omega) _ _
  refine ⟨w.set (w.now + 1) le_rfl n hsim.len_le hsim.represents.sealed_ascending, _,
    ⟨rfl, Nat.le_succ _, fun e he => hpast e he.le, ?_, ?_⟩,
    ⟨h.id_eq.trans hid.symm, ?_, ?_⟩, rfl, ⟨h.id_eq.symm, rfl, ?_, ?_⟩, rfl, hnext⟩
  · exact congrArg sealed (hpast w.now le_rfl)
  · show _ <+: (dict w.now).values
    rw [hpast w.now le_rfl]
  · show w.now + 1 = a'.epoch
    rw [hnext, h.now_eq]
  · show a'.Simulates (dict (w.now + 1))
    rw [hself]
    exact hsim
  · show a.epoch < w.now + 1
    rw [h.now_eq]
    exact Nat.lt_succ_self _
  · intro code b hb
    have hvalue : (w.dict w.now).values[code]? = some b := by
      rw [← hpast w.now le_rfl, h.now_eq]
      exact hb
    have hmem := mem_of_getElem? hvalue
    refine ⟨rankIn (w.dict w.now).values b, h.simulates.applyRaw_sealRemap hvalue, ?_⟩
    show (dict (a.epoch + 1)).sealed[_]? = some b
    rw [← h.now_eq, hself, ← rankIn_perm (sortAll_perm _)]
    exact getElem?_rankIn (ascending_sortAll h.simulates.represents.nodup)
      ((sortAll_perm _).mem_iff.mpr hmem)

lemma length_prefix4 (bytes : Bytes) : (prefix4 bytes).length = 4 := by
  simp [prefix4, prefixLen]
  omega

lemma Of.mint (h : w.Of a) (canonical : Bytes) : ∃ w', w.Ages w' ∧ w'.Of (mint canonical a).2 ∧
      ∀ m, (mint canonical a).1 = .ok m → w'.MintedFor m canonical := by
  rcases canonical with _ | ⟨tag, payload⟩
  · refine ⟨w, .refl w, h, fun m hm => ?_⟩
    cases hm
  rw [Word.mint]
  split_ifs with hshort
  · -- A short payload stays in the word.
    refine ⟨w, .refl w, h, fun m hm => ?_⟩
    cases hm
    have hsize : payload.length < 256 := lt_of_le_of_lt hshort (by decide)
    have htoNat : (ofNat payload.length).toNat = payload.length :=
      toNat_ofNat_of_lt' hsize
    have hinline : ofNat payload.length ≠ lenOutOfLine := by
      intro hmark
      have hlen : payload.length = 255 := by
        rw [← htoNat, hmark]
        rfl
      exact absurd hshort (by rw [hlen]; decide)
    refine ⟨?_, .inl ⟨rfl, ?_⟩⟩
    · simp only [length_append, length_replicate]
      omega
    · simp [inlineCanonical, isInline, hinline, htoNat]
  · -- A long one is interned.
    obtain ⟨w', hages, hof, hstamped⟩ := h.intern (tag :: payload)
    rcases hint : a.intern (tag :: payload) with ⟨e | sc, a'⟩
    · rw [hint] at hof
      refine ⟨w', hages, hof, fun m hm => ?_⟩
      cases hm
    · rw [hint] at hof hstamped
      refine ⟨w', hages, hof, fun m hm => ?_⟩
      cases hm
      have hsc := hstamped sc rfl
      have hfit : sc.code ≤ u32Max := by
        have hlt := (List.getElem_of_getElem? hsc.value_eq).1
        rw [View.Represents.length_values] at hlt
        exact (hlt.trans_le (w'.len_le _ hsc.epoch_le)).le
      refine ⟨by simp [length_prefix4, inlineMax], .inr ⟨sc, rfl, ?_, hsc⟩⟩
      exact code_of_bytes (length_prefix4 _) hfit

lemma Carries.apply (hm : w.Carries m) {sc sc' : StampedCode} {b : Bytes}
    (hsc : w.Stamped sc b) (hok : m.apply sc = .ok sc') : w.Stamped sc' b := by
  obtain ⟨⟨⟩, hshared, hok⟩ := bind_ok hok
  obtain ⟨code, hcode, hok⟩ := bind_ok hok
  cases hok
  obtain ⟨-, hepoch⟩ := proveShared_eq_ok_iff.mp hshared
  obtain ⟨code', hcode', hvalue⟩ := hm.applyRaw_ok sc.code b (hepoch ▸ hsc.value_eq)
  cases hcode.symm.trans hcode'
  exact ⟨hm.arena_eq, hm.target_le, getElem?_values_of_sealed hvalue⟩

end History

/-! ## The value plane -/

/-- One arena and what was handed out by it; beside every stamp and word, and beside the columns,
the values they were made from. -/
structure Plane where
  arena : Arena
  /-- The remaps of the seals, in order. -/
  remaps : List EpochRemap
  /-- Stamps handed out. -/
  stamps : List (StampedCode × Bytes)
  /-- Words handed out. -/
  minted : List (Minted × Bytes)
  /-- Snapshots handed out. -/
  snapshots : List Observer
  /-- A column of codes and the values pushed into it. -/
  codes : Option (CodeColumn × List Bytes)
  /-- A column of words and the values pushed into it. -/
  words : Option (WordColumn × List Bytes)

/-- What a holder of the plane can do. -/
inductive PlaneAction where
  /-- `Arena::intern`. -/
  | intern (value : Bytes)
  /-- `Value::mint`. -/
  | mint (canonical : Bytes)
  /-- `Arena::seal`. -/
  | sealEpoch
  /-- `Arena::snapshot`. -/
  | snapshot
  /-- `EpochRemap::apply` to a stamp. -/
  | restamp (m : EpochRemap) (sc : StampedCode) (value : Bytes)
  /-- `CodeColumn::new_in`, for the live frame or a snapshot. -/
  | newCodes (snapshot : Option ℕ)
  /-- `CodeColumn::push` of a stamp for a value. -/
  | pushCode (sc : StampedCode) (value : Bytes)
  /-- `CodeColumn::gather`. -/
  | gatherCodes (m : EpochRemap)
  /-- `WordColumn::new_in`, for the live frame or a snapshot. -/
  | newWords (snapshot : Option ℕ)
  /-- `WordColumn::push` of a word for a value. -/
  | pushWord (m : Minted) (value : Bytes)
  /-- `WordColumn::gather`. -/
  | gatherWords (m : EpochRemap)

namespace Plane

/-- A fresh arena. -/
def new (id : ℕ) : Plane := ⟨.new id, [], [], [], [], none, none⟩

variable (p : Plane)

/-- The live frame and the snapshots. -/
def observers : List Observer := p.arena.frame :: p.snapshots

/-- The observer a column is opened for. -/
def observer : Option ℕ → Option Observer
  | none => some p.arena.frame
  | some i => p.snapshots[i]?

/-- A stamp handed out for the value, or one of another arena. -/
def Stamp (sc : StampedCode) (value : Bytes) : Prop :=
  (sc, value) ∈ p.stamps ∨ sc.arena ≠ p.arena.id

/-- A word handed out for the value, or one with a stamp of another arena. -/
def Mint (m : Minted) (value : Bytes) : Prop :=
  (m, value) ∈ p.minted ∨ ∃ sc ∈ m.stamp, sc.arena ≠ p.arena.id

/-- A remap handed out, or one of another arena. -/
def Remap (m : EpochRemap) : Prop := m ∈ p.remaps ∨ m.arena ≠ p.arena.id

instance (p : Plane) (sc : StampedCode) (value : Bytes) : Decidable (p.Stamp sc value) :=
  inferInstanceAs (Decidable (_ ∨ _))

instance (p : Plane) (m : Minted) (value : Bytes) : Decidable (p.Mint m value) :=
  inferInstanceAs (Decidable (_ ∨ ∃ sc ∈ m.stamp, sc.arena ≠ p.arena.id))

instance (p : Plane) (m : EpochRemap) : Decidable (p.Remap m) :=
  inferInstanceAs (Decidable (_ ∨ _))

/-- One action, if what it uses was handed out.  A refused push changes nothing; a gather uses its
column up, so a refused one leaves none. -/
def step : PlaneAction → Option Plane
  | .intern value =>
    let r := p.arena.intern value
    some { p with
      arena := r.2
      stamps := p.stamps ++ (r.1.toOption.map (·, value)).toList }
  | .mint canonical =>
    let r := mint canonical p.arena
    some { p with
      arena := r.2
      minted := p.minted ++ (r.1.toOption.map (·, canonical)).toList }
  | .sealEpoch =>
    let r := p.arena.sealEpoch
    some { p with arena := r.2, remaps := p.remaps ++ r.1.toOption.toList }
  | .snapshot =>
    let r := p.arena.snapshot
    some { p with arena := r.2, snapshots := p.snapshots ++ [r.1] }
  | .restamp m sc value =>
    if m ∈ p.remaps ∧ (sc, value) ∈ p.stamps then
      some { p with stamps := p.stamps ++ ((m.apply sc).toOption.map (·, value)).toList }
    else none
  | .newCodes i => (p.observer i).map fun o => { p with codes := some (.newIn o, []) }
  | .pushCode sc value =>
    if p.Stamp sc value then
      some { p with codes := p.codes.map fun (c, values) =>
        match c.push sc with
        | (.ok _, c) => (c, values ++ [value])
        | (.error _, c) => (c, values) }
    else none
  | .gatherCodes m =>
    if p.Remap m then
      some { p with codes := p.codes.bind fun (c, values) =>
        (c.gather m).toOption.map (·, values) }
    else none
  | .newWords i => (p.observer i).map fun o => { p with words := some (.newIn o, []) }
  | .pushWord m value =>
    if p.Mint m value then
      some { p with words := p.words.map fun (c, values) =>
        match c.push m with
        | (.ok _, c) => (c, values ++ [value])
        | (.error _, c) => (c, values) }
    else none
  | .gatherWords m =>
    if p.Remap m then
      some { p with words := p.words.bind fun (c, values) =>
        (c.gather m).toOption.map (·, values) }
    else none

/-- The epoch counter has room for a seal. -/
def Counted (action : PlaneAction) : Prop :=
  action = .sealEpoch → p.arena.epoch + 1 < 2 ^ 64

/-! ## What every reachable plane keeps -/

/-- Everything handed out and both columns have their meaning in the history. -/
structure Sound (w : History) (p : Plane) : Prop where
  of : w.Of p.arena
  remaps_length : p.remaps.length = p.arena.epoch
  /-- The remaps carry codes over. -/
  remaps : ∀ i m, p.remaps[i]? = some m → w.Carries m ∧ m.source = i
  /-- The stamps are for their values. -/
  stamps : ∀ s ∈ p.stamps, w.Stamped s.1 s.2
  /-- The words are for their values. -/
  minted : ∀ m ∈ p.minted, w.MintedFor m.1 m.2
  snapshots : ∀ o ∈ p.snapshots, w.Observes o
  /-- The column of codes holds its values. -/
  codes : ∀ c ∈ p.codes, w.HoldsCodes c.1 c.2
  /-- The column of words holds its values. -/
  words : ∀ c ∈ p.words, w.HoldsWords c.1 c.2

namespace Sound

variable {p q : Plane}

lemma new (id : ℕ) : Sound (.new id) (.new id) := by
  refine ⟨History.of_new id, rfl, ?_, ?_, ?_, ?_, ?_, ?_⟩ <;> simp [Plane.new]

section

variable (h : Sound w p)
include h

lemma observers : ∀ o ∈ p.observers, w.Observes o :=
  forall_mem_cons.mpr ⟨h.of.frame, h.snapshots⟩

lemma observer {i : Option ℕ} {o : Observer} (ho : p.observer i = some o) : w.Observes o := by
  rcases i with _ | i
  · cases ho
    exact h.of.frame
  · exact h.snapshots o (mem_of_getElem? ho)

lemma carries (hm : m ∈ p.remaps) : w.Carries m := by
  obtain ⟨i, hi⟩ := mem_iff_getElem?.mp hm
  exact (h.remaps i m hi).1

variable {w' : History} (hw : w.Ages w') (hof : w'.Of a)
include hw hof

lemma ages {remaps : List EpochRemap} (hlen : remaps.length = a.epoch)
    (hremaps : ∀ i m, remaps[i]? = some m → w'.Carries m ∧ m.source = i) :
    Sound w' { p with arena := a, remaps := remaps } where
  of := hof
  remaps_length := hlen
  remaps := hremaps
  stamps := fun s hs => (h.stamps s hs).ages hw
  minted := fun m hm => (h.minted m hm).ages hw
  snapshots := fun o ho => (h.snapshots o ho).ages hw
  codes := fun c hc => (h.codes c hc).ages hw
  words := fun c hc => (h.words c hc).ages hw

lemma ages_of_epoch_eq (hepoch : a.epoch = p.arena.epoch) : Sound w' { p with arena := a } :=
  h.ages hw hof (h.remaps_length.trans hepoch.symm)
    fun i m hm => ⟨(h.remaps i m hm).1.ages hw, (h.remaps i m hm).2⟩

end

variable {value : Bytes}

lemma forall_mem_handed {α : Type} {P : α × Bytes → Prop} {handed : List (α × Bytes)}
    (hold : ∀ x ∈ handed, P x) {r : Except Denial α} (hnew : ∀ x, r = .ok x → P (x, value)) :
    ∀ x ∈ handed ++ (r.toOption.map (·, value)).toList, P x := by
  intro x hx
  rcases mem_append.mp hx with hx | hx
  · exact hold x hx
  · rcases r with e | y
    · simp [Except.toOption] at hx
    · obtain rfl : x = (y, value) := by simpa [Except.toOption] using hx
      exact hnew y rfl

lemma intern (h : Sound w p) (hstep : p.step (.intern value) = some q) : ∃ w', Sound w' q := by
  cases hstep
  obtain ⟨w', hages, hof, hstamped⟩ := h.of.intern value
  have hnext := h.ages_of_epoch_eq hages hof (p.arena.intern_frame value).1
  exact ⟨w', { hnext with stamps := forall_mem_handed hnext.stamps hstamped }⟩

lemma epoch_mint (canonical : Bytes) (a : Arena) : (mint canonical a).2.epoch = a.epoch := by
  rcases canonical with _ | ⟨tag, payload⟩
  · rfl
  · rw [mint]
    split_ifs
    · rfl
    · have hepoch := (a.intern_frame (tag :: payload)).1
      rcases hint : a.intern (tag :: payload) with ⟨e | sc, a'⟩
      · rwa [hint] at hepoch
      · rwa [hint] at hepoch

section

variable (h : Sound w p)

include h

lemma mint {canonical : Bytes} (hstep : p.step (.mint canonical) = some q) : ∃ w', Sound w' q := by
  cases hstep
  obtain ⟨w', hages, hof, hminted⟩ := h.of.mint canonical
  have hnext := h.ages_of_epoch_eq hages hof (epoch_mint canonical p.arena)
  exact ⟨w', { hnext with minted := forall_mem_handed hnext.minted hminted }⟩

lemma sealEpoch (hroom : p.arena.epoch + 1 < 2 ^ 64)
    (hstep : p.step .sealEpoch = some q) : ∃ w', Sound w' q := by
  cases hstep
  obtain ⟨w', m, hages, hof, hseal, hcarries, hsource, hepoch⟩ := h.of.sealEpoch hroom
  refine ⟨w', h.ages hages hof ?_ ?_⟩
  · simp [hseal, Except.toOption, h.remaps_length, hepoch]
  · intro i m' hm'
    simp only [hseal, Except.toOption, toList_some] at hm'
    rcases Nat.lt_or_ge i p.remaps.length with hi | hi
    · rw [getElem?_append_left hi] at hm'
      exact ⟨(h.remaps i m' hm').1.ages hages, (h.remaps i m' hm').2⟩
    · rw [getElem?_append_right hi, getElem?_singleton] at hm'
      split_ifs at hm' with hlast
      cases hm'
      refine ⟨hcarries, ?_⟩
      rw [hsource, ← h.remaps_length]
      omega

lemma snapshot (hstep : p.step .snapshot = some q) : ∃ w', Sound w' q := by
  cases hstep
  obtain ⟨hobs, hof⟩ := h.of.snapshot
  have hnext := h.ages_of_epoch_eq (.refl w) hof rfl
  refine ⟨w, { hnext with snapshots := ?_ }⟩
  exact forall_mem_append.mpr ⟨h.snapshots, forall_mem_singleton.mpr hobs⟩

variable {sc : StampedCode}

lemma restamp (hstep : p.step (.restamp m sc value) = some q) : ∃ w', Sound w' q := by
  simp only [step] at hstep
  split_ifs at hstep with hguard
  cases hstep
  have hsc : w.Stamped sc value := h.stamps (sc, value) hguard.2
  exact ⟨w, { h with
    stamps := forall_mem_handed h.stamps fun _ hok => (h.carries hguard.1).apply hsc hok }⟩

variable {i : Option ℕ}

lemma newCodes (hstep : p.step (.newCodes i) = some q) : ∃ w', Sound w' q := by
  obtain ⟨o, ho, rfl⟩ := map_eq_some_iff.mp hstep
  refine ⟨w, { h with codes := ?_ }⟩
  intro c hc
  cases hc
  exact .newIn (h.observer ho)

lemma pushCode (hstep : p.step (.pushCode sc value) = some q) : ∃ w', Sound w' q := by
  simp only [step] at hstep
  split_ifs at hstep with hguard
  cases hstep
  refine ⟨w, { h with codes := ?_ }⟩
  intro c hc
  obtain ⟨⟨c₀, values⟩, hc₀, rfl⟩ := map_eq_some_iff.mp hc
  have hholds := h.codes _ hc₀
  rcases hpush : c₀.push sc with ⟨e | ⟨⟩, c'⟩
  · simpa only [hpush, CodeColumn.push_error hpush] using hholds
  · rcases hguard with hmem | hforeign
    · exact hholds.push (h.stamps _ hmem) hpush
    · exact absurd hpush (hholds.push_foreign (h.of.id_eq ▸ hforeign))

lemma gatherCodes (hstep : p.step (.gatherCodes m) = some q) : ∃ w', Sound w' q := by
  simp only [step] at hstep
  split_ifs at hstep with hguard
  cases hstep
  refine ⟨w, { h with codes := ?_ }⟩
  intro c hc
  obtain ⟨⟨c₀, values⟩, hc₀, hc⟩ := bind_eq_some_iff.mp hc
  have hholds := h.codes _ hc₀
  rcases hgather : c₀.gather m with e | c'
  · simp [hgather, Except.toOption] at hc
  · obtain rfl : (c', values) = c := by simpa [hgather, Except.toOption] using hc
    obtain ⟨⟨⟩, hshared, -⟩ := bind_ok hgather
    obtain ⟨harena, hepoch⟩ := proveShared_eq_ok_iff.mp hshared
    rcases hguard with hmem | hforeign
    · obtain ⟨c'', hok, hnext, -⟩ := hholds.gather (h.carries hmem) hepoch.symm
      cases hgather.symm.trans hok
      exact hnext
    · exact absurd (harena.symm.trans (hholds.encloses.arena_eq.trans h.of.id_eq)) hforeign

lemma newWords (hstep : p.step (.newWords i) = some q) : ∃ w', Sound w' q := by
  obtain ⟨o, ho, rfl⟩ := map_eq_some_iff.mp hstep
  refine ⟨w, { h with words := ?_ }⟩
  intro c hc
  cases hc
  exact .newIn (h.observer ho)

lemma pushWord {m : Minted} (hstep : p.step (.pushWord m value) = some q) : ∃ w', Sound w' q := by
  simp only [step] at hstep
  split_ifs at hstep with hguard
  cases hstep
  refine ⟨w, { h with words := ?_ }⟩
  intro c hc
  obtain ⟨⟨c₀, values⟩, hc₀, rfl⟩ := map_eq_some_iff.mp hc
  have hholds := h.words _ hc₀
  rcases hpush : c₀.push m with ⟨e | ⟨⟩, c'⟩
  · simpa only [hpush, WordColumn.push_error hpush] using hholds
  · rcases hguard with hmem | ⟨sc, hstamp, hforeign⟩
    · exact hholds.push (h.minted _ hmem) hpush
    · exact absurd hpush (hholds.push_foreign hstamp (h.of.id_eq ▸ hforeign))

lemma gatherWords (hstep : p.step (.gatherWords m) = some q) : ∃ w', Sound w' q := by
  simp only [step] at hstep
  split_ifs at hstep with hguard
  cases hstep
  refine ⟨w, { h with words := ?_ }⟩
  intro c hc
  obtain ⟨⟨c₀, values⟩, hc₀, hc⟩ := bind_eq_some_iff.mp hc
  have hholds := h.words _ hc₀
  rcases hgather : c₀.gather m with e | c'
  · simp [hgather, Except.toOption] at hc
  · obtain rfl : (c', values) = c := by simpa [hgather, Except.toOption] using hc
    obtain ⟨⟨⟩, hshared, -⟩ := bind_ok hgather
    obtain ⟨harena, hepoch⟩ := proveShared_eq_ok_iff.mp hshared
    rcases hguard with hmem | hforeign
    · obtain ⟨c'', hok, hnext, -⟩ := hholds.gather (h.carries hmem) hepoch.symm
      cases hgather.symm.trans hok
      exact hnext
    · exact absurd (harena.symm.trans (hholds.encloses.arena_eq.trans h.of.id_eq)) hforeign

/-- **One step** keeps every meaning. -/
theorem step {action : PlaneAction} (hroom : p.Counted action)
    (hstep : p.step action = some q) : ∃ w', Sound w' q := by
  cases action with
  | intern value => exact h.intern hstep
  | mint canonical => exact h.mint hstep
  | sealEpoch => exact h.sealEpoch (hroom rfl) hstep
  | snapshot => exact h.snapshot hstep
  | restamp m sc value => exact h.restamp hstep
  | newCodes i => exact h.newCodes hstep
  | pushCode sc value => exact h.pushCode hstep
  | gatherCodes m => exact h.gatherCodes hstep
  | newWords i => exact h.newWords hstep
  | pushWord m value => exact h.pushWord hstep
  | gatherWords m => exact h.gatherWords hstep

end

end Sound

lemma sound_of_run {id : ℕ} {actions : List PlaneAction} {p : Plane}
    (h : StepRun step Counted (new id) actions p) : ∃ w, Sound w p :=
  h.invariant (P := fun p => ∃ w, Sound w p) ⟨.new id, .new id⟩
    fun ⟨_, hw⟩ hroom hnext => hw.step hroom hnext

/-! ## What columns read -/

/-- The column of codes reads as these values: its extent covers every code, every observer of its
epoch that sees that far admits it and resolves every position, the live frame does in the current
epoch, and where all codes are sealed, values in order have codes in order. -/
structure ReadsCodes (p : Plane) (c : CodeColumn) (values : List Bytes) : Prop where
  length_eq : c.codes.length = values.length
  covered : ∀ code ∈ c.codes, code < c.domain.extent
  /-- Any observer. -/
  resolves : ∀ o ∈ p.observers, o.epoch = c.domain.epoch → c.domain.extent ≤ o.view.len →
    ∃ adm, c.admitCodes o = .ok adm ∧ ∀ i b, values[i]? = some b → adm.resolve i = .ok b
  /-- The live frame. -/
  frame_sees : c.domain.epoch = p.arena.epoch → c.domain.extent ≤ p.arena.frame.view.len
  /-- The order. -/
  sorted : ∀ o ∈ p.observers, ∀ adm, c.admitCodes o = .ok adm → adm.allSealed = true →
    values.Pairwise (fun a b => (compare a b).isLE) → c.codes.Pairwise (· ≤ ·)

/-- The column of words reads as these values. -/
structure ReadsWords (p : Plane) (c : WordColumn) (values : List Bytes) : Prop where
  length_eq : c.words.length = values.length
  covered : ∀ x ∈ c.words, ∀ code ∈ x.code, code < c.domain.extent
  /-- Any observer. -/
  resolves : ∀ o ∈ p.observers, o.epoch = c.domain.epoch → c.domain.extent ≤ o.view.len →
    ∃ adm, c.admitWords o = .ok adm ∧ ∀ i b, values[i]? = some b → adm.canonical i = .ok b
  /-- The live frame. -/
  frame_sees : c.domain.epoch = p.arena.epoch → c.domain.extent ≤ p.arena.frame.view.len

/-- The remaps from one epoch over the next `k`. -/
def remapsFrom (e k : ℕ) : List EpochRemap := (p.remaps.drop e).take k

namespace Sound

variable {p : Plane} (h : Sound w p)
include h

lemma frame_sees {d : Domain} {codes : List ℕ} (hd : w.Encloses d codes)
    (hnow : d.epoch = p.arena.epoch) : d.extent ≤ p.arena.frame.view.len := by
  have hle := hd.extent_le
  rw [hnow, ← h.of.now_eq] at hle
  rw [h.of.simulates.represents.len_eq]
  exact hle

variable {values : List Bytes}

lemma readsCodes {c : CodeColumn} (hc : w.HoldsCodes c values) : p.ReadsCodes c values where
  length_eq := hc.reads.length_eq
  covered := hc.encloses.covered
  resolves := fun o ho hepoch hsees => hc.admitCodes (h.observers o ho) hepoch hsees
  frame_sees := h.frame_sees hc.encloses
  sorted := fun o ho _ hadm hall hvalues => hc.sorted (h.observers o ho) hadm hall hvalues

lemma readsWords {c : WordColumn} (hc : w.HoldsWords c values) : p.ReadsWords c values where
  length_eq := hc.reads.length_eq
  covered := fun x hx code hcode =>
    hc.encloses.covered code (mem_filterMap.mpr ⟨x, hx, hcode⟩)
  resolves := fun o ho hepoch hsees => hc.admitWords (h.observers o ho) hepoch hsees
  frame_sees := h.frame_sees hc.encloses

lemma remapsFrom_succ {e k : ℕ} (hk : e + (k + 1) ≤ p.arena.epoch) :
    ∃ m, p.remapsFrom e (k + 1) = p.remapsFrom e k ++ [m] ∧ w.Carries m ∧ m.source = e + k := by
  have hlt : e + k < p.remaps.length := by
    rw [h.remaps_length]
    omega
  have hget : p.remaps[e + k]? = some p.remaps[e + k] := getElem?_eq_getElem hlt
  refine ⟨p.remaps[e + k], ?_, h.remaps _ _ hget⟩
  rw [remapsFrom, remapsFrom, take_add_one, getElem?_drop, hget, toList_some]

/-- **Gathering over `k` epochs**, for any kind of column whose gather through the remap of its
epoch keeps what the column holds and leaves sealed codes only. -/
theorem gather_all {C : Type} {gather : C → EpochRemap → Except Denial C}
    (domain : C → Domain) (holds : C → Prop)
    (hgather : ∀ c, holds c → ∀ m, w.Carries m → m.source = (domain c).epoch →
      ∃ c', gather c m = .ok c' ∧ holds c' ∧ (domain c').epoch = (domain c).epoch + 1 ∧
        (domain c').extent ≤ (w.dict ((domain c).epoch + 1)).sealed.length)
    {c : C} (hc : holds c) (k : ℕ) (hk : (domain c).epoch + k ≤ p.arena.epoch) :
    ∃ c', (p.remapsFrom (domain c).epoch k).foldlM gather c = .ok c' ∧ holds c' ∧
      (domain c').epoch = (domain c).epoch + k ∧
      (0 < k → (domain c').extent ≤ (w.dict (domain c').epoch).sealed.length) := by
  induction k with
  | zero =>
    refine ⟨c, ?_, hc, rfl, fun h => absurd h (lt_irrefl 0)⟩
    rfl
  | succ k ih =>
    obtain ⟨c', hgathered, hc', hepoch, -⟩ := ih (by omega)
    obtain ⟨m, hm, hcarries, hsource⟩ := h.remapsFrom_succ hk
    obtain ⟨c'', hnext, hc'', hepoch', hsealed⟩ :=
      hgather c' hc' m hcarries (hsource.trans hepoch.symm)
    refine ⟨c'', ?_, hc'', by omega, fun _ => hepoch' ▸ hsealed⟩
    rw [hm, foldlM_append, hgathered]
    simp [bind, Except.bind, hnext, pure, Except.pure]

lemma sealed_of_extent {d : Domain} (hd : d.extent ≤ (w.dict d.epoch).sealed.length) :
    ∀ o ∈ p.observers, o.epoch = d.epoch → d.extent ≤ o.view.sealedLen := by
  intro o ho hepoch
  obtain ⟨n, hn, hsealed, -⟩ := (h.observers o ho).view
  rw [hn.sealedLen_eq, hsealed, hepoch]
  exact hd

end Sound

/-- **Gathering preserves values.**  In every plane reached by interns, mints, seals, snapshots,
pushes and gathers in any order, gathering a column of codes or of words through the remaps of its
epoch and the `k` next ones succeeds, the result is of that later epoch and reads as the values that
were pushed, and after a seal all its codes are sealed for every observer of its epoch. -/
theorem gather_preserves_values {id : ℕ} {actions : List PlaneAction} {p : Plane}
    (h : StepRun step Counted (new id) actions p) :
    (∀ c values, p.codes = some (c, values) → c.domain.epoch ≤ p.arena.epoch ∧
      ∀ k, c.domain.epoch + k ≤ p.arena.epoch →
        ∃ c', (p.remapsFrom c.domain.epoch k).foldlM CodeColumn.gather c = .ok c' ∧
          c'.domain.epoch = c.domain.epoch + k ∧ p.ReadsCodes c' values ∧
          (0 < k → ∀ o ∈ p.observers, o.epoch = c'.domain.epoch →
            c'.domain.extent ≤ o.view.sealedLen)) ∧
    (∀ c values, p.words = some (c, values) → c.domain.epoch ≤ p.arena.epoch ∧
      ∀ k, c.domain.epoch + k ≤ p.arena.epoch →
        ∃ c', (p.remapsFrom c.domain.epoch k).foldlM WordColumn.gather c = .ok c' ∧
          c'.domain.epoch = c.domain.epoch + k ∧ p.ReadsWords c' values ∧
          (0 < k → ∀ o ∈ p.observers, o.epoch = c'.domain.epoch →
            c'.domain.extent ≤ o.view.sealedLen)) := by
  obtain ⟨w, hw⟩ := sound_of_run h
  constructor
  · intro c values hcodes
    have hc : w.HoldsCodes c values := hw.codes (c, values) hcodes
    refine ⟨hw.of.now_eq ▸ hc.encloses.epoch_le, fun k hk => ?_⟩
    obtain ⟨c', hgathered, hc', hepoch, hsealed⟩ :=
      hw.gather_all CodeColumn.domain (w.HoldsCodes · values)
        (fun c hc m hm hsource => hc.gather hm hsource) hc k hk
    exact ⟨c', hgathered, hepoch, hw.readsCodes hc', fun hk => hw.sealed_of_extent (hsealed hk)⟩
  · intro c values hwords
    have hc : w.HoldsWords c values := hw.words (c, values) hwords
    refine ⟨hw.of.now_eq ▸ hc.encloses.epoch_le, fun k hk => ?_⟩
    obtain ⟨c', hgathered, hc', hepoch, hsealed⟩ :=
      hw.gather_all WordColumn.domain (w.HoldsWords · values)
        (fun c hc m hm hsource => hc.gather hm hsource) hc k hk
    exact ⟨c', hgathered, hepoch, hw.readsWords hc', fun hk => hw.sealed_of_extent (hsealed hk)⟩

/-- A column of two tail codes, gathered through a seal that reorders them. -/
theorem gather_preserves_values_sealed_run :
    ∃ p c c', p.codes = some (c, [[5], [1]]) ∧ c.codes = [0, 1] ∧
      StepRun step Counted (new 0) [.newCodes none, .intern [5], .intern [1],
        .pushCode ⟨0, 0, 0⟩ [5], .pushCode ⟨1, 0, 0⟩ [1], .sealEpoch] p ∧
      (p.remapsFrom 0 1).foldlM CodeColumn.gather c = .ok c' ∧
      p.ReadsCodes c' [[5], [1]] := by
  let actions : List PlaneAction := [.newCodes none, .intern [5], .intern [1],
    .pushCode ⟨0, 0, 0⟩ [5], .pushCode ⟨1, 0, 0⟩ [1]]
  obtain ⟨p, hp, hepoch⟩ := map_eq_some_iff.mp
    (show (runSteps step (new 0) actions).map (fun p => p.arena.epoch) = some 0 by decide +kernel)
  obtain ⟨q, hq, hcolumn⟩ := map_eq_some_iff.mp
    (show (runSteps step (new 0) (actions ++ [.sealEpoch])).map
      (fun p => (p.codes, p.arena.epoch)) = some (some (⟨⟨0, 0, 2⟩, [0, 1]⟩, [[5], [1]]), 1)
      by decide +kernel)
  obtain ⟨hcodes, hnow⟩ := Prod.mk.inj hcolumn
  have hrun : StepRun step Counted (new 0) actions p := by
    refine StepRun.nil.extend actions ?_ hp
    intro action haction p hseal
    subst hseal
    simp [actions] at haction
  have hrun' := hrun.snoc (fun _ => by rw [hepoch]; decide)
    ((runSteps_concat hp _).symm.trans hq)
  obtain ⟨c', hgathered, -, hreads, -⟩ :=
    ((gather_preserves_values hrun').1 _ _ hcodes).2 1 (by rw [hnow])
  exact ⟨q, _, c', hcodes, rfl, hrun', hgathered, hreads⟩

end Plane

end Kyzo
