import Kyzo.Lib.PrefixCodec
import Kyzo.Value.ArenaSeal

/-!
# Whole runs of the arena

The arena and the naive dictionary are driven in lockstep through any sequence of internings, seals
and snapshots.  One step keeps the simulation and evolves the pair: the heap only grows, the epoch
only advances, and within an epoch the codes already given keep their values.  By induction so does
a run, and what the frames and snapshots of a run answer is then read off the dictionary.
-/

namespace Kyzo

open List Observer Arena Heap.Extends Nat

/-! ## Observers of a dictionary -/

namespace Observer

/-- Two observers answer alike. -/
structure Agrees (o o' : Observer) : Prop where
  /-- On every stamp. -/
  resolve : ∀ sc, o.resolve sc = o'.resolve sc
  /-- On every pair of stamps. -/
  cmpCodes : ∀ sa sb, o.cmpCodes sa sb = o'.cmpCodes sa sb
  /-- On every needle. -/
  rank : ∀ value, o.rank value = o'.rank value
  /-- On every rank. -/
  select : ∀ k, o.select k = o'.select k

variable {o o' : Observer} {n : Naive}

lemma agrees_of_represents (harena : o.arena = o'.arena) (hepoch : o.epoch = o'.epoch)
    (h : o.view.Represents n) (h' : o'.view.Represents n) : o.Agrees o' := by
  have hcheck : ∀ sc, o.check sc = o'.check sc := by
    intro sc
    rw [check, check, harena, hepoch, h.len_eq, h'.len_eq]
  refine ⟨fun sc => ?_, fun sa sb => ?_, fun value => ?_, fun k => ?_⟩
  · simp [resolve, hcheck, h.resolve_eq, h'.resolve_eq]
  · simp [cmpCodes, hcheck, h.cmp_eq, h'.cmp_eq]
  · rw [rank, rank, h.rank_eq, h'.rank_eq]
  · rw [select, select, h.select_eq, h'.select_eq]

section

variable (h : o.view.Represents n)

include h

lemma check_eq_ok_iff (sc : StampedCode) (c : ℕ) : o.check sc = .ok c ↔
      sc = ⟨c, o.epoch, o.arena⟩ ∧ c < n.len := by
  rcases sc with ⟨code, epoch, arena⟩
  rw [check, h.len_eq, proveShared]
  by_cases harena : o.arena = arena
  · by_cases hepoch : o.epoch = epoch
    · by_cases hlen : n.len ≤ code
      · simpa [harena, hepoch, hlen, bind, Except.bind] using fun h => h ▸ hlen
      · have hlt : code < n.len := not_le.mp hlen
        simpa [harena, hepoch, hlen, bind, Except.bind] using fun h => h ▸ hlt
    · simp [harena, hepoch, bind, Except.bind, eq_comm]
  · simp [harena, bind, Except.bind, eq_comm]

lemma check_of_getElem? {sc : StampedCode} {v : Bytes} (hepoch : sc.epoch = o.epoch)
    (harena : sc.arena = o.arena) (hget : n.values[sc.code]? = some v) :
    o.check sc = .ok sc.code ∧ sc.code < n.len := by
  have hlt : sc.code < n.len := by
    rw [← View.Represents.length_values]
    exact (List.getElem_of_getElem? hget).1
  exact ⟨(check_eq_ok_iff h sc sc.code).mpr ⟨by rw [← hepoch, ← harena], hlt⟩, hlt⟩

lemma resolve_eq_ok_iff (sc : StampedCode) (v : Bytes) :
    o.resolve sc = .ok v ↔ sc.epoch = o.epoch ∧ sc.arena = o.arena ∧
      n.values[sc.code]? = some v := by
  constructor
  · intro hres
    obtain ⟨c, hc, hv⟩ := bind_ok hres
    obtain ⟨rfl, _⟩ := (check_eq_ok_iff h sc c).mp hc
    rw [h.resolve_eq, Naive.resolve] at hv
    rcases hget : n.values[c]? with _ | b
    · simp [hget] at hv
    · simpa [hget] using hv
  · rintro ⟨hepoch, harena, hget⟩
    rw [resolve, (check_of_getElem? h hepoch harena hget).1]
    simp only [bind, Except.bind]
    rw [h.resolve_eq, Naive.resolve, hget]

lemma cmpCodes_of_resolve {sa sb : StampedCode} {va vb : Bytes}
    (ha : o.resolve sa = .ok va) (hb : o.resolve sb = .ok vb) :
    o.cmpCodes sa sb = .ok (compare va vb) := by
  have hlive : ∀ {sc v}, o.resolve sc = .ok v →
      o.check sc = .ok sc.code ∧ sc.code < n.len ∧ n.values.getD sc.code [] = v := by
    intro sc v hres
    obtain ⟨hepoch, harena, hget⟩ := (resolve_eq_ok_iff h sc v).mp hres
    obtain ⟨hc, hlt⟩ := check_of_getElem? h hepoch harena hget
    refine ⟨hc, hlt, ?_⟩
    rw [getD_eq_getElem?_getD, hget]
    rfl
  obtain ⟨hca, hla, hva⟩ := hlive ha
  obtain ⟨hcb, hlb, hvb⟩ := hlive hb
  rw [cmpCodes, hca, hcb]
  simp only [bind, Except.bind]
  rw [h.cmp_eq, Naive.cmp, if_neg (not_le.mpr hla), if_neg (not_le.mpr hlb), hva, hvb]

lemma length_le_of_mem_values {v : Bytes} (hv : v ∈ n.values) : v.length ≤ u32Max := by
  have hvalid : ∀ e : Entry, e.Valid o.view.store → (o.view.store e.span).length ≤ u32Max :=
    fun e he => he.len_eq.le.trans he.len_le
  rcases mem_append.mp hv with hv | hv
  · obtain ⟨run, hrun, e, he, rfl⟩ := h.exists_run_entry hv
    exact hvalid e (h.run_entry hrun he).1
  · rw [← h.tail_eq] at hv
    obtain ⟨e, he, rfl⟩ := mem_map.mp hv
    exact hvalid e (h.arrivals_valid e he)

lemma select_eq_ok_iff_rank (k : ℕ) (v : Bytes) : o.select k = .ok v ↔ o.rank v = .ok (.ok k) := by
  have hasc : Ascending compare (sortAll n.values) := ascending_sortAll h.nodup
  have hperm := sortAll_perm n.values
  rw [select, rank, h.select_eq, h.rank_eq, Naive.select, Naive.rank, Naive.unionSorted]
  constructor
  · intro hsel
    rcases hget : (sortAll n.values)[k]? with _ | b
    · simp [hget] at hsel
    simp only [hget, Except.ok.injEq] at hsel
    subst hsel
    obtain ⟨hk, rfl⟩ := List.getElem_of_getElem? hget
    have hmem := hperm.mem_iff.mp (getElem_mem hk)
    rw [if_neg (not_lt.mpr (length_le_of_mem_values h hmem)), if_pos hmem, ← rankIn_perm hperm,
      rankIn_getElem hasc hk]
  · intro hrank
    split_ifs at hrank with _ hmem
    · cases hrank
      rw [← rankIn_perm hperm, getElem?_rankIn hasc (hperm.mem_iff.mpr hmem)]
    · cases hrank

end

end Observer

/-! ## Steps -/

/-- A writer operation. -/
inductive ArenaOp where
  /-- `Arena::intern`. -/
  | intern (value : Bytes)
  /-- `Arena::seal`. -/
  | sealEpoch
  /-- `Arena::snapshot`. -/
  | snapshot
  deriving DecidableEq, Repr

/-- How many seals a sequence holds. -/
def seals (ops : List ArenaOp) : ℕ := ops.count .sealEpoch

/-- One operation on the arena and on the naive dictionary.  An interning the arena refuses for
capacity is not made on the dictionary. -/
def driveStep : Arena × Naive → ArenaOp → Arena × Naive
  | (a, n), .intern value =>
    ((a.intern value).2, match (a.intern value).1 with
      | .ok _ => (n.intern value).2
      | .error _ => n)
  | (a, n), .sealEpoch => (a.sealEpoch.2, n.sealEpoch.2)
  | (a, n), .snapshot => (a.snapshot.2, n)

/-- A whole run of both. -/
def drive (p : Arena × Naive) (ops : List ArenaOp) : Arena × Naive := ops.foldl driveStep p

/-- How a pair may change: the identity stays, payloads stay where they are, the epoch does not go
back, and within an epoch a code keeps its value. -/
structure Evolves (p q : Arena × Naive) : Prop where
  id_eq : q.1.id = p.1.id
  /-- The heap only grows. -/
  extends_heap : p.1.heap.Extends q.1.heap
  /-- The epoch does not go back. -/
  epoch_le : p.1.epoch ≤ q.1.epoch
  /-- Codes keep their values within an epoch. -/
  values_isPrefix : q.1.epoch = p.1.epoch → p.2.values <+: q.2.values

lemma Evolves.refl (p : Arena × Naive) : Evolves p p :=
  ⟨rfl, Heap.Extends.refl _, le_rfl, fun _ => prefix_rfl⟩

lemma Evolves.trans {p q r : Arena × Naive} (hpq : Evolves p q) (hqr : Evolves q r) :
    Evolves p r := by
  refine ⟨hqr.id_eq.trans hpq.id_eq, hpq.extends_heap.trans hqr.extends_heap,
    hpq.epoch_le.trans hqr.epoch_le, fun hepoch => ?_⟩
  have hp := hpq.epoch_le
  have hq := hqr.epoch_le
  exact (hpq.values_isPrefix (by omega)).trans (hqr.values_isPrefix (by omega))

namespace Arena

lemma intern_frame (a : Arena) (value : Bytes) :
    (a.intern value).2.epoch = a.epoch ∧ a.heap.Extends (a.intern value).2.heap := by
  have hself : a.epoch = a.epoch ∧ a.heap.Extends a.heap := ⟨rfl, refl _⟩
  have hext := a.heap.push_extends value
  unfold intern
  split_ifs
  · exact hself
  · exact hself
  · simp only
    split
    · exact hself
    · rcases a.delta.search (prefix4 value) value a.heap.payload with pos | pos
      · rcases hpush : a.heap.push value with ⟨r, heap⟩
        rw [hpush] at hext
        rcases r with e | span <;> exact ⟨rfl, hext⟩
      · exact hself

end Arena

lemma Naive.values_intern (n : Naive) (value : Bytes) : n.values <+: (n.intern value).2.values := by
  unfold Naive.intern
  split_ifs
  · exact prefix_rfl
  · exact prefix_rfl
  · exact ⟨[value], append_assoc _ _ _⟩

variable {a : Arena} {n : Naive}

/-- **One step** keeps the simulation, evolves the pair and counts its seal. -/
theorem driveStep_simulates (h : a.Simulates n) (op : ArenaOp)
    (hseals : a.epoch + seals [op] < 2 ^ 64) :
    (driveStep (a, n) op).1.Simulates (driveStep (a, n) op).2 ∧
      Evolves (a, n) (driveStep (a, n) op) ∧
        (driveStep (a, n) op).1.epoch = a.epoch + seals [op] := by
  rcases op with value | _ | _
  · obtain ⟨hepoch, hext⟩ := a.intern_frame value
    obtain ⟨a', hid, ⟨-, hint, hsim⟩ | ⟨hint, hsim⟩⟩ := h.intern value
    · simp only [driveStep, hint] at hepoch hext ⊢
      exact ⟨hsim, ⟨hid, hext, hepoch.ge, fun _ => prefix_rfl⟩, hepoch⟩
    · simp only [driveStep, hint] at hepoch hext ⊢
      exact ⟨hsim, ⟨hid, hext, hepoch.ge, fun _ => n.values_intern value⟩, hepoch⟩
  · obtain ⟨a', hrun, hid, hheap, hepoch, hsim⟩ := h.sealEpoch hseals
    simp only [driveStep, hrun]
    refine ⟨hsim, ⟨hid, ?_, ?_, ?_⟩, hepoch⟩
    · rw [hheap]
      exact refl _
    · exact hepoch ▸ le_succ _
    · intro hsame
      simp only [hepoch] at hsame
      omega
  · exact ⟨h.snapshot.1, ⟨rfl, a.heap.freezeLive_extends, le_rfl, fun _ => prefix_rfl⟩, rfl⟩

/-- **A run** keeps the simulation, evolves the pair and counts its seals. -/
theorem drive_simulates (h : a.Simulates n) (ops : List ArenaOp)
    (hseals : a.epoch + seals ops < 2 ^ 64) : (drive (a, n) ops).1.Simulates (drive (a, n) ops).2 ∧
      Evolves (a, n) (drive (a, n) ops) ∧ (drive (a, n) ops).1.epoch = a.epoch + seals ops := by
  induction ops generalizing a n with
  | nil => exact ⟨h, Evolves.refl _, rfl⟩
  | cons op ops ih =>
    have hcount : seals (op :: ops) = seals [op] + seals ops := by
      rw [seals, ← singleton_append, count_append]
      rfl
    rw [hcount] at hseals ⊢
    obtain ⟨hstep, hev, hepoch⟩ := driveStep_simulates h op (by omega)
    obtain ⟨hrun, hev', hepoch'⟩ := ih hstep (by omega)
    exact ⟨hrun, hev.trans hev', by rw [← add_assoc, ← hepoch]; exact hepoch'⟩

/-! ## What a run answers -/

lemma Naive.getElem?_intern (n : Naive) (value : Bytes) :
    (n.intern value).2.values[(n.intern value).1]? = some value := by
  unfold Naive.intern
  split_ifs with hsealed htail
  · rw [Naive.values, getElem?_append_left (idxOf_lt_length_of_mem hsealed),
      getElem?_idxOf hsealed]
  · rw [Naive.values, getElem?_append_right (Nat.le_add_right _ _), Nat.add_sub_cancel_left,
      getElem?_idxOf htail]
  · rw [Naive.values, getElem?_append_right (Nat.le_add_right _ _), Nat.add_sub_cancel_left,
      getElem?_concat_length]

lemma Naive.intern_sealEpoch (h : n.values.Nodup) {v : Bytes} (hv : v ∈ n.values) :
    n.sealEpoch.2.intern v = (rankIn n.values v, n.sealEpoch.2) := by
  have hperm := sortAll_perm n.values
  have hmem : v ∈ n.sealEpoch.2.sealed := hperm.mem_iff.mpr hv
  rw [Naive.intern, if_pos hmem, ← rankIn_perm hperm,
    ← idxOf_eq_rankIn (ascending_sortAll h) hmem]
  rfl

/-- **The arena refines the naive dictionary**, after any sequence of operations from a fresh arena.
An interning refuses at a capacity only, and otherwise answers the naive code, which then resolves
to the interned bytes; every code resolves as in the dictionary; codes compare as their bytes;
`select` reads the sorted union and is inverse to `rank`; and a seal mints a remap that takes every
live code to the code of the same bytes in the new epoch. -/
theorem arena_refines_naive (id : ℕ) (ops : List ArenaOp) (hseals : seals ops + 1 < 2 ^ 64) :
    let a := (drive (new id, Naive.new) ops).1
    let n := (drive (new id, Naive.new) ops).2
    (∀ value, a.AtCapacity value ∧ (a.intern value).1 = .error .extentOverflow ∨
      (a.intern value).1 = .ok (a.stamp (n.intern value).1) ∧
        (a.intern value).2.frame.resolve (a.stamp (n.intern value).1) = .ok value) ∧
    (∀ sc v, a.frame.resolve sc = .ok v ↔
      sc.epoch = n.epoch ∧ sc.arena = id ∧ n.values[sc.code]? = some v) ∧
    (∀ sa sb va vb, a.frame.resolve sa = .ok va → a.frame.resolve sb = .ok vb →
      a.frame.cmpCodes sa sb = .ok (compare va vb)) ∧
    (∀ k v, a.frame.select k = .ok v ↔ n.unionSorted[k]? = some v) ∧
    (∀ k v, a.frame.select k = .ok v ↔ a.frame.rank v = .ok (.ok k)) ∧
    (∃ m, a.sealEpoch.1 = .ok m ∧ ∀ sc v, a.frame.resolve sc = .ok v →
      m.apply sc = .ok (a.sealEpoch.2.stamp (n.sealEpoch.2.intern v).1) ∧
        a.sealEpoch.2.frame.resolve (a.sealEpoch.2.stamp (n.sealEpoch.2.intern v).1) = .ok v) := by
  have hstart : (new id).epoch = 0 := rfl
  obtain ⟨hsim, hev, hepoch⟩ := drive_simulates (simulates_new id) ops (by omega)
  intro a n
  have hrep : a.frame.view.Represents n := hsim.represents
  have hid : a.id = id := hev.id_eq
  have hlive : ∀ sc v, a.frame.resolve sc = .ok v ↔
      sc.epoch = n.epoch ∧ sc.arena = id ∧ n.values[sc.code]? = some v := by
    intro sc v
    rw [resolve_eq_ok_iff hrep, ← hid, ← hsim.epoch_eq]
    rfl
  refine ⟨?_, hlive, ?_, ?_, select_eq_ok_iff_rank hrep, ?_⟩
  · intro value
    obtain ⟨a', hid', ⟨hcap, hint, -⟩ | ⟨hint, hsim'⟩⟩ := hsim.intern value
    · exact .inl ⟨hcap, congrArg Prod.fst hint⟩
    · refine .inr ⟨congrArg Prod.fst hint, ?_⟩
      have hepoch' : a'.epoch = a.epoch := by
        have hframe := (a.intern_frame value).1
        rwa [hint] at hframe
      rw [show a.intern value = _ from hint, resolve_eq_ok_iff hsim'.represents]
      exact ⟨hepoch'.symm, hid'.symm, n.getElem?_intern value⟩
  · intro sa sb va vb ha hb
    exact cmpCodes_of_resolve hrep ha hb
  · intro k v
    rw [select, hrep.select_eq, Naive.select]
    rcases n.unionSorted[k]? with _ | b <;> simp
  · obtain ⟨a', hrun, hid', -, hepoch', hsim'⟩ := hsim.sealEpoch (by omega)
    refine ⟨a.sealRemap n, congrArg Prod.fst hrun, ?_⟩
    intro sc v hres
    obtain ⟨hsc, hsc', hget⟩ := (hlive _ _).mp hres
    have hstamp : a.stamp sc.code = sc := by
      rw [stamp, hid, show a.epoch = n.epoch from hsim.epoch_eq, ← hsc, ← hsc']
    have hcode := Naive.intern_sealEpoch hrep.nodup (mem_of_getElem? hget)
    have hnew := n.sealEpoch.2.getElem?_intern v
    rw [hcode] at hnew ⊢
    rw [show a.sealEpoch = _ from hrun]
    constructor
    · have happly := hsim.apply_sealRemap hget
      rw [show (drive (new id, Naive.new) ops).1.stamp sc.code = sc from hstamp] at happly
      rw [stamp, hepoch', hid']
      exact happly
    · exact (resolve_eq_ok_iff hsim'.represents _ _).mpr ⟨rfl, rfl, hnew⟩

/-- The refinement at a run that seals between two internings. -/
theorem arena_refines_naive_sealed_run : seals [.intern [2], .sealEpoch, .intern [1]] + 1 < 2 ^ 64 ∧
      ∀ k v, (drive (new 0, Naive.new)
          [.intern [2], .sealEpoch, .intern [1]]).1.frame.select k = .ok v ↔
        (drive (new 0, Naive.new)
          [.intern [2], .sealEpoch, .intern [1]]).1.frame.rank v = .ok (.ok k) := by
  have hseals : seals [.intern [2], .sealEpoch, .intern [1]] + 1 < 2 ^ 64 := by decide
  obtain ⟨-, -, -, -, hinverse, -⟩ := arena_refines_naive 0 _ hseals
  exact ⟨hseals, hinverse⟩

/-! ## Snapshots -/

namespace Observer

/-- The same observer, reading payloads from another store. -/
def through (o : Observer) (store : Store) : Observer :=
  { o with view := { o.view with store := store } }

/-- A stamp is refused, alone and on the left of every comparison. -/
def Refuses (o : Observer) (sc : StampedCode) : Prop :=
  ∃ e, o.resolve sc = .error e ∧ ∀ other, o.cmpCodes sc other = .error e

lemma refuses_of_not_live {o : Observer} {n : Naive} (h : o.view.Represents n) {sc : StampedCode}
    (hdead : sc.epoch = o.epoch → n.len ≤ sc.code) : o.Refuses sc := by
  rcases hc : o.check sc with e | c
  · refine ⟨e, ?_, fun other => ?_⟩
    · rw [resolve, hc]
      rfl
    · rw [cmpCodes, hc]
      rfl
  · obtain ⟨rfl, hlt⟩ := (check_eq_ok_iff h sc c).mp hc
    exact absurd (hdead rfl) (not_le.mpr hlt)

end Observer

lemma getElem?_of_isPrefix {l l' : List Bytes} (hpre : l <+: l') (hnodup : l'.Nodup)
    {c : ℕ} {v : Bytes} (hc : l'[c]? = some v) (hv : v ∈ l) : l[c]? = some v := by
  obtain ⟨i, hi, rfl⟩ := getElem_of_mem hv
  have hi' : l'[i]? = some l[i] := by
    obtain ⟨t, rfl⟩ := hpre
    rw [List.getElem?_append_left hi, List.getElem?_eq_getElem hi]
  obtain ⟨hlt, heq⟩ := List.getElem_of_getElem? hc
  obtain ⟨hlt', heq'⟩ := List.getElem_of_getElem? hi'
  have hsame : c = i := (hnodup.getElem_inj_iff).mp (heq.trans heq'.symm)
  rw [hsame, getElem?_eq_getElem hi]

section Cut

variable {a a' : Arena} {n n' : Naive} (h : a.Simulates n)
include h

lemma snapshot_agrees_frame : a.snapshot.1.Agrees a.frame :=
  agrees_of_represents rfl rfl h.snapshot.2 h.represents

lemma snapshot_through_agrees (hev : Evolves (a.snapshot.2, n) (a', n')) :
    (a.snapshot.1.through a'.heap.payload).Agrees a.snapshot.1 := by
  have hrep := h.snapshot.2
  refine agrees_of_represents rfl rfl (hrep.congr_store fun e he => ?_) hrep
  have hholds := h.holds e he
  have hfrozen := a.heap.freezeLive_extends _ hholds
  calc a'.heap.payload e.span = a.heap.freezeLive.payload e.span :=
        (hev.extends_heap _ hfrozen.1).2
    _ = a.heap.payload e.span := hfrozen.2
    _ = frozenPayload a.heap.freezeLive.frozen e.span :=
        (Heap.frozenPayload_freezeLive hholds).symm

variable (h' : a'.Simulates n') (hev : Evolves (a.snapshot.2, n) (a', n'))
include h' hev

lemma snapshot_interned {value : Bytes} {sc : StampedCode} (hint : (a'.intern value).1 = .ok sc) :
    (sc.epoch = a.epoch ∧ value ∈ n.values → a.snapshot.1.resolve sc = .ok value) ∧
      (¬ (sc.epoch = a.epoch ∧ value ∈ n.values) → a.snapshot.1.Refuses sc) := by
  have hrep := h.snapshot.2
  obtain ⟨a'', -, ⟨-, hrun, -⟩ | ⟨hrun, hsim⟩⟩ := h'.intern value
  · rw [hrun] at hint
    cases hint
  rw [hrun] at hint
  cases hint
  have hnow := n'.getElem?_intern value
  have hpre : a'.epoch = a.epoch → n.values <+: (n'.intern value).2.values := fun hsame =>
    (hev.values_isPrefix hsame).trans (n'.values_intern value)
  constructor
  · rintro ⟨hsame, hmem⟩
    refine (resolve_eq_ok_iff hrep _ _).mpr ⟨hsame, hev.id_eq, ?_⟩
    exact getElem?_of_isPrefix (hpre hsame) hsim.represents.nodup hnow hmem
  · intro hnew
    refine refuses_of_not_live hrep fun hsame => ?_
    by_contra hlt
    rw [← View.Represents.length_values, not_le] at hlt
    have hlt' : (n'.intern value).1 < n.values.length := hlt
    obtain ⟨t, ht⟩ := hpre hsame
    rw [← ht, getElem?_append_left hlt'] at hnow
    exact hnew ⟨hsame, mem_of_getElem? hnow⟩

lemma snapshot_remapped (hepoch : a'.epoch + 1 < 2 ^ 64) {m : EpochRemap}
    {sc sc' : StampedCode} (hseal : a'.sealEpoch.1 = .ok m) (happly : m.apply sc = .ok sc') :
    a.snapshot.1.Refuses sc' := by
  obtain ⟨a'', hrun, -⟩ := h'.sealEpoch hepoch
  rw [hrun] at hseal
  cases hseal
  obtain ⟨-, -, happly⟩ := bind_ok happly
  obtain ⟨c, -, happly⟩ := bind_ok happly
  cases happly
  refine refuses_of_not_live h.snapshot.2 fun hsame => ?_
  have hle : a.epoch ≤ a'.epoch := hev.epoch_le
  have hnext : a'.epoch + 1 = a.epoch := hsame
  omega

end Cut

/-- **Snapshots are stable.**  A snapshot answers as the live frame did when it was taken, and still
does when its payloads are read from the writer's heap after any later operations.  A stamp an
interning mints later resolves to its value if the value was interned at the cut and the epoch has
not moved on, and is refused otherwise; a stamp from a later seal's remap is refused. -/
theorem snapshot_stable (id : ℕ) (before after : List ArenaOp)
    (hseals : seals before + seals after + 1 < 2 ^ 64) :
    let p := drive (new id, Naive.new) before
    let s := p.1.snapshot.1
    let q := drive (p.1.snapshot.2, p.2) after
    s.Agrees p.1.frame ∧ (s.through q.1.heap.payload).Agrees s ∧
    (∀ value sc, (q.1.intern value).1 = .ok sc →
      (sc.epoch = s.epoch ∧ value ∈ p.2.values → s.resolve sc = .ok value) ∧
      (¬ (sc.epoch = s.epoch ∧ value ∈ p.2.values) → s.Refuses sc)) ∧
    (∀ m sc sc', q.1.sealEpoch.1 = .ok m → m.apply sc = .ok sc' → s.Refuses sc') := by
  have hstart : (new id).epoch = 0 := rfl
  obtain ⟨hsim, -, hepoch⟩ := drive_simulates (simulates_new id) before (by omega)
  have hcut : (drive (new id, Naive.new) before).1.snapshot.2.epoch = seals before := by
    rw [← zero_add (seals before), ← hstart, ← hepoch]
    rfl
  obtain ⟨hsim', hev, hepoch'⟩ := drive_simulates hsim.snapshot.1 after (by omega)
  refine ⟨snapshot_agrees_frame hsim, snapshot_through_agrees hsim hev, ?_, ?_⟩
  · intro value sc hint
    exact snapshot_interned hsim hsim' hev hint
  · intro m sc sc' hseal happly
    exact snapshot_remapped hsim hsim' hev (by omega) hseal happly

/-- Stability at a snapshot between two internings, with a seal after it. -/
theorem snapshot_stable_sealed_run :
    seals [.intern [1]] + seals [.intern [2], .sealEpoch] + 1 < 2 ^ 64 ∧
      (drive (new 0, Naive.new) [.intern [1]]).1.snapshot.1.Agrees
        (drive (new 0, Naive.new) [.intern [1]]).1.frame := by
  have hseals : seals [.intern [1]] + seals [.intern [2], .sealEpoch] + 1 < 2 ^ 64 := by decide
  exact ⟨hseals, (snapshot_stable 0 _ _ hseals).1⟩

/-- A stamp minted after the cut may be one the snapshot knows: interning a value again answers its
code, which the snapshot resolves. -/
theorem snapshot_resolves_reinterned :
    ((drive (new 0, Naive.new) [.intern [1]]).1.snapshot.2.intern [1]).1 = .ok ⟨0, 0, 0⟩ ∧
      (drive (new 0, Naive.new) [.intern [1]]).1.snapshot.1.resolve ⟨0, 0, 0⟩ =
        .ok [1] := by
  decide

end Kyzo
