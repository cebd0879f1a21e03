import Kyzo.Session.Constraints
import Kyzo.Session.PlainIndex

/-!
# Constraints along runs

Every recorded constraint derives nothing along the runs whose steps meet a condition: a constraint
that reads the relation of an index reads its base too, and an index comes or goes only where the
constraints of its base do not read through indices.
-/

namespace Kyzo

open List Option Std Catalog IndexRef Except InputInlineRulesOrFixed

variable {K M Env Options : Type}

/-! ## Recorded constraints -/

/-- A constraint is recorded in the row of a relation. -/
def Catalog.Records (cat : Catalog K M) (name : String) (k : ConstraintRef) : Prop :=
  ∃ r, cat[name]? = some r ∧ k ∈ r.constraints

/-- What queries and the enforcement read of a relation. -/
def StoredRelation.face (r : StoredRelation K M) : RelationView K M × List ConstraintRef :=
  (r.view, r.constraints)

/-- The rows of a program depend on no clock and on no random draw. -/
def Engine.Steady (e : Engine K M Env Options) (prog : InputProgram) : Prop :=
  ∀ env env' s, e.derives env s prog = e.derives env' s prog

/-- What a scan of a relation reads. -/
def RelationView.core (v : RelationView K M) : StoredRelationMetadata × KeyspaceKind × K :=
  (v.metadata, v.keyspaceKind, v.keyspace)

/-- The rows of a program depend on no index of the relations it reads. -/
def Engine.IndexBlind (e : Engine K M Env Options) (prog : InputProgram) : Prop :=
  ∀ env s t, (∀ n ∈ storedReadSet prog, (s n).map RelationView.core = (t n).map RelationView.core) →
    e.derives env s prog = e.derives env t prog

/-- What holds of every committed catalog. -/
structure Catalog.Sound (e : Engine K M Env Options) (cat : Catalog K M) : Prop where
  reads : ∀ {n k}, cat.Records n k → n ∈ storedReadSet k.program
  mirrored : ∀ {n m k}, cat.Records n k → m ∈ storedReadSet k.program → cat.Records m k
  unique : ∀ {n m k l}, cat.Records n k → cat.Records m l → k.name = l.name → k = l
  based : ∀ {n m k}, cat.Records n k → m ∈ storedReadSet k.program →
    baseOf m ∈ storedReadSet k.program
  steady : ∀ {n k}, cat.Records n k → e.Steady k.program
  denied : ∀ {n k}, cat.Records n k → ∀ env, e.derives env cat.surface k.program = []

variable {e : Engine K M Env Options} {cat cat' : Catalog K M}

/-! ## Groups of names -/

variable {idx : IndexRef M} {base m : String}

lemma IndexRef.eq_of_mem_relationNames
    (h : m ∈ idx.relationNames base) : ∃ name, m = base ++ ":" ++ name := by
  unfold relationNames at h
  split at h
  · rw [mem_pair] at h
    obtain rfl | rfl := h
    · exact ⟨idx.name, rfl⟩
    · exact ⟨_, rfl⟩
  · exact ⟨idx.name, mem_singleton.mp h⟩

lemma IndexRef.baseOf_relationNames (h : m ∈ idx.relationNames base) : baseOf m = baseOf base := by
  obtain ⟨name, rfl⟩ := eq_of_mem_relationNames h
  exact baseOf_append_colon base name

lemma IndexRef.self_notMem_relationNames {base : String} : base ∉ idx.relationNames base := by
  intro h
  obtain ⟨name, heq⟩ := eq_of_mem_relationNames h
  simpa using congrArg (·.toList.length) heq

lemma RelationHandle.baseOf_indexNames {h : RelationHandle M}
    (hm : m ∈ h.indexNames base) : baseOf m = baseOf base := by
  obtain ⟨idx, -, hm⟩ := mem_flatMap.mp hm
  exact baseOf_relationNames hm

lemma baseOf_baseOf (name : String) : baseOf (baseOf name) = baseOf name := by
  rw [baseOf, baseOf, String.toList_ofList, takeWhile_takeWhile]
  simp

lemma Surface.sameAt_of_group {s t : Surface K M} {n : String}
    (h : ∀ m, baseOf m = baseOf n → s m = t m) : s.SameAt t n :=
  ⟨h n rfl, fun _ _ _ _ m hm => h m (baseOf_relationNames hm)⟩

variable {n : CompoundIdent} {k : ConstraintRef}

namespace Catalog

variable (h : cat.Sound e)
include h

lemma Sound.records_baseOf {n : String} (hk : cat.Records n k) : cat.Records (baseOf n) k :=
  h.mirrored hk (h.based hk (h.reads hk))

lemma Sound.derives_eq {n : String} (hk : cat.Records n k)
    (hsame : ∀ m, cat.Records (baseOf m) k → cat'.surface m = cat.surface m) (env : Env) :
    e.derives env cat'.surface k.program = [] := by
  rw [← h.denied hk env]
  refine e.derives_local env _ _ _ fun m hm => Surface.sameAt_of_group fun m' hm' => ?_
  refine hsame m' ?_
  rw [hm']
  exact h.records_baseOf (h.mirrored hk hm)

lemma Sound.transfer (hrec : ∀ n k, cat'.Records n k ↔ cat.Records n k)
    (hden : ∀ n k, cat.Records n k → ∀ env, e.derives env cat'.surface k.program = []) :
    cat'.Sound e where
  reads hk := h.reads ((hrec _ _).mp hk)
  mirrored hk hm := (hrec _ _).mpr (h.mirrored ((hrec _ _).mp hk) hm)
  unique hk hl hname := h.unique ((hrec _ _).mp hk) ((hrec _ _).mp hl) hname
  based hk hm := h.based ((hrec _ _).mp hk) hm
  steady hk := h.steady ((hrec _ _).mp hk)
  denied hk := hden _ _ ((hrec _ _).mp hk)

omit h in
lemma records_congr {n : String} (h : cat'[n]? = cat[n]?) : cat'.Records n k ↔ cat.Records n k := by
  rw [Records, Records, h]

omit h in
lemma records_iff_face {n : String} :
    cat.Records n k ↔ ∃ f, cat[n]?.map StoredRelation.face = some f ∧ k ∈ f.2 := by
  simp [Records, StoredRelation.face]

omit h in
lemma surface_congr {n : String} (h : cat'[n]? = cat[n]?) : cat'.surface n = cat.surface n := by
  rw [surface, surface, h]

lemma Sound.of_bare (hother : ∀ m, m ≠ n.text → cat'[m]? = cat[m]?)
    (hold : ∀ k, ¬ cat.Records n.text k) (hnew : ∀ k, ¬ cat'.Records n.text k) : cat'.Sound e := by
  refine h.transfer (fun m k => ?_) fun m k hk => h.derives_eq hk fun m' hm' => ?_
  · by_cases hm : m = n.text
    · subst hm
      exact iff_of_false (hnew k) (hold k)
    · exact records_congr (hother m hm)
  · refine surface_congr (hother m' ?_)
    rintro rfl
    rw [baseOf_compound] at hm'
    exact hold k hm'

lemma Sound.of_same
    (hsame : ∀ m : String, cat'[m]?.map StoredRelation.face = cat[m]?.map StoredRelation.face) :
    cat'.Sound e := by
  have hview (m : String) : cat'.surface m = cat.surface m := by
    have hmap := congrArg (Option.map Prod.fst) (hsame m)
    rwa [Option.map_map, Option.map_map] at hmap
  have hrec (m : String) (k : ConstraintRef) : cat'.Records m k ↔ cat.Records m k := by
    rw [records_iff_face, records_iff_face, hsame]
  exact h.transfer hrec fun _ _ hk => h.derives_eq hk fun m' _ => hview m'

lemma Sound.of_index (names : List String)
    {r r' : StoredRelation K M} (hn : cat[n.text]? = some r) (hn' : cat'[n.text]? = some r')
    (hcons : r'.constraints = r.constraints) (hcore : r'.view.core = r.view.core)
    (hnames : ∀ m ∈ names, baseOf m = n.text)
    (hother : ∀ m, m ≠ n.text → m ∉ names → cat'[m]? = cat[m]?)
    (hbare : ∀ m ∈ names, m ≠ n.text → ∀ k, ¬ cat.Records m k ∧ ¬ cat'.Records m k)
    (hblind : ∀ k ∈ r.constraints, e.IndexBlind k.program) : cat'.Sound e := by
  refine h.transfer (fun m k => ?_) fun m k hk env => ?_
  · by_cases hm : m = n.text
    · subst hm
      simp [Records, hn, hn', some.injEq, exists_eq_left', hcons]
    · by_cases hmem : m ∈ names
      · exact iff_of_false (hbare m hmem hm k).2 (hbare m hmem hm k).1
      · exact records_congr (hother m hm hmem)
  · by_cases hat : cat.Records n.text k
    · obtain ⟨s, hs, hks⟩ := hat
      cases hn.symm.trans hs
      rw [← h.denied hk env]
      refine hblind k hks env _ _ fun m' hm' => ?_
      by_cases heq : m' = n.text
      · subst heq
        simp [surface, hn, hn', map_some, hcore]
      · have hmem : m' ∉ names := fun hmem =>
          (hbare m' hmem heq k).1 (h.mirrored hk hm')
        rw [surface_congr (hother m' heq hmem)]
    · refine h.derives_eq hk (fun m' hm' => ?_) env
      have hbase : baseOf m' ≠ n.text := fun heq => hat (heq ▸ hm')
      refine surface_congr (hother m' ?_ fun hmem => hbase (hnames m' hmem))
      rintro rfl
      exact hbase (baseOf_compound n)

omit h

/-! ## The operations on rows -/

variable {r : StoredRelation K M}

lemma get_insert_of_ne {m n : String} (h : m ≠ n) : (cat.insert n r)[m]? = cat[m]? := by
  rw [TreeMap.getElem?_insert, if_neg]
  rw [LawfulEqCmp.compare_eq_iff_eq]
  exact h.symm

lemma get_insert_self {n : String} : (cat.insert n r)[n]? = some r :=
  TreeMap.getElem?_insert_self

lemma get_erase_of_ne {m n : String} (h : m ≠ n) : (cat.erase n)[m]? = cat[m]? := by
  rw [TreeMap.getElem?_erase, if_neg]
  rw [LawfulEqCmp.compare_eq_iff_eq]
  exact h.symm

lemma get_erase_self {n : String} : (cat.erase n)[n]? = none := TreeMap.getElem?_erase_self

lemma get_setKeyspace (m n : String) (k : K) : (cat.setKeyspace n k)[m]? =
      if m = n then cat[m]?.map fun r => { r with keyspace := k } else cat[m]? := by
  rw [setKeyspace, TreeMap.getElem?_modify]
  by_cases h : m = n
  · subst h
    rw [if_pos ReflCmp.compare_self, if_pos rfl]
  · rw [if_neg h, if_neg]
    rw [LawfulEqCmp.compare_eq_iff_eq]
    exact fun heq => h heq.symm

lemma records_setKeyspace {m n : String} {k : K} {l : ConstraintRef} :
    (cat.setKeyspace n k).Records m l ↔ cat.Records m l := by
  rw [Records, Records, get_setKeyspace]
  by_cases h : m = n
  · rw [if_pos h]
    simp
  · rw [if_neg h]

section

variable {names : List String} {ks : List K}

lemma get_setKeyspaces_of_notMem (h : m ∉ names) : (cat.setKeyspaces names ks)[m]? = cat[m]? := by
  rw [setKeyspaces]
  induction names generalizing cat ks with
  | nil => rfl
  | cons n names ih =>
    rw [mem_cons, not_or] at h
    cases ks with
    | nil => rfl
    | cons k ks =>
      rw [zip_cons_cons, foldl_cons, ih h.2, get_setKeyspace, if_neg h.1]

lemma records_setKeyspaces {l : ConstraintRef} :
    (cat.setKeyspaces names ks).Records m l ↔ cat.Records m l := by
  rw [setKeyspaces]
  induction names.zip ks generalizing cat with
  | nil => rfl
  | cons p ps ih => rw [foldl_cons, ih, records_setKeyspace]

end

section

variable {n : String}

lemma not_records_of_none (h : cat[n]? = none) : ¬ cat.Records n k := by
  rintro ⟨r, hr, -⟩
  rw [h] at hr
  cases hr

lemma not_records_of_some (h : cat[n]? = some r) (hbare : r.constraints = []) :
    ¬ cat.Records n k := by
  rintro ⟨s, hs, hk⟩
  cases h.symm.trans hs
  rw [hbare] at hk
  exact not_mem_nil hk

lemma getRelation_eq_ok : cat.getRelation n = .ok r ↔ cat[n]? = some r := by
  unfold getRelation
  split
  · simp_all
  · simp_all

lemma createRelation_eq_ok {handle : RelationHandle M} {keyspace : K}
    (h : cat.createRelation n handle keyspace = .ok cat') :
    cat[n]? = none ∧ cat' = cat.insert n { handle with keyspace := keyspace } := by
  unfold createRelation at h
  simp only [guard_eq_ok] at h
  obtain ⟨-, hmem, h⟩ := h
  exact ⟨TreeMap.getElem?_eq_none hmem, (ok.inj h).symm⟩

lemma destroyRelation_eq_ok (h : cat.destroyRelation n = .ok cat') :
    ∃ r, cat[n]? = some r ∧ r.constraints = [] ∧ cat' = cat.erase n := by
  obtain ⟨r, hr, h⟩ := bind_ok h
  simp only [guard_eq_ok] at h
  refine ⟨r, getRelation_eq_ok.mp hr, ?_⟩
  have h := h.2
  split at h
  · cases h
  · rename_i hnone
    exact ⟨hnone, (ok.inj (guard_eq_ok.mp h).2).symm⟩

end

lemma renameRelation_eq_ok {old new : CompoundIdent} (h : cat.renameRelation old new = .ok cat') :
    ∃ r, cat[old.text]? = some r ∧ r.constraints = [] ∧ cat[new.text]? = none ∧
      cat' = (cat.erase old.text).insert new.text r := by
  unfold renameRelation at h
  simp only [guard_eq_ok] at h
  obtain ⟨-, hnew, h⟩ := h
  obtain ⟨r, hr, h⟩ := bind_ok h
  have h := (guard_eq_ok.mp h).2
  split at h
  · cases h
  · rename_i hnone
    exact ⟨r, getRelation_eq_ok.mp hr, hnone, TreeMap.getElem?_eq_none hnew,
      (ok.inj (guard_eq_ok.mp h).2).symm⟩

/-! ## System operations on base relations -/

section

variable (h : cat.Sound e)

include h

lemma Sound.erase
    (hr : cat[n.text]? = some r) (hbare : r.constraints = []) : Sound e (cat.erase n.text) :=
  h.of_bare (fun _ hm => get_erase_of_ne hm) (fun _ => not_records_of_some hr hbare)
    fun _ => not_records_of_none get_erase_self

lemma Sound.destroyRelation (hrun : cat.destroyRelation n.text = .ok cat') : cat'.Sound e := by
  obtain ⟨r, hr, hbare, rfl⟩ := destroyRelation_eq_ok hrun
  exact h.erase hr hbare

lemma Sound.renameRelation {old new : CompoundIdent}
    (hrun : cat.renameRelation old new = .ok cat') : cat'.Sound e := by
  obtain ⟨r, hr, hbare, hnew, rfl⟩ := renameRelation_eq_ok hrun
  have hne : new.text ≠ old.text := by
    intro heq
    rw [heq, hr] at hnew
    cases hnew
  exact (h.erase hr hbare).of_bare (fun _ hm => get_insert_of_ne hm)
    (fun _ => not_records_of_none ((get_erase_of_ne hne).trans hnew))
    fun _ => not_records_of_some get_insert_self hbare

lemma Sound.insert_face {n : String} {r r' : StoredRelation K M}
    (hr : cat[n]? = some r) (hface : r'.face = r.face) : Sound e (cat.insert n r') := by
  refine h.of_same fun m => ?_
  by_cases hm : m = n
  · subst hm
    rw [get_insert_self, hr, map_some, map_some, hface]
  · rw [get_insert_of_ne hm]

lemma Sound.setAccessLevel {level : AccessLevel}
    (hrun : cat.setAccessLevel level n = .ok cat') : cat'.Sound e := by
  obtain ⟨r, hr, hrun⟩ := bind_ok hrun
  cases hrun
  exact h.insert_face (getRelation_eq_ok.mp hr) rfl

lemma Sound.setRelationTriggers {puts rms replaces : List InputProgram}
    (hrun : cat.setRelationTriggers n puts rms replaces = .ok cat') : cat'.Sound e := by
  unfold Catalog.setRelationTriggers at hrun
  simp only [guard_eq_ok] at hrun
  obtain ⟨r, hr, hrun⟩ := bind_ok hrun.2
  obtain rfl := ok.inj (guard_eq_ok.mp hrun).2
  exact h.insert_face (getRelation_eq_ok.mp hr) rfl

end

end Catalog

/-! ## Transactions -/

/-- Noted constraints: under its name each, and recorded in the committed catalog. -/
def SessionTx.OfRecorded (cat : Catalog K M) (pending : TreeMap String ConstraintRef) : Prop :=
  ∀ {name : String} {k}, pending[name]? = some k → k.name = name ∧ ∃ n, cat.Records n k

/-- A transaction against the committed catalog it started from: it records the same constraints,
and a constraint is noted unless the relations of the bases it is recorded at are untouched. -/
structure SessionTx.Tracks (cat : Catalog K M) (tx : SessionTx K M) : Prop where
  records : ∀ n k, tx.store.Records n k ↔ cat.Records n k
  noted : ∀ {n k}, cat.Records n k → tx.pendingConstraints[k.name]? = some k ∨
    ∀ m, baseOf m = baseOf n → tx.store.surface m = cat.surface m
  pending : OfRecorded cat tx.pendingConstraints

variable {name : String} {options : Options} {env : Env}

namespace SessionTx

variable {tx tx' : SessionTx K M}

lemma tracks_newWrite : Tracks cat (newWrite cat) where
  records _ _ := Iff.rfl
  noted _ := .inr fun _ _ => rfl
  pending h := by
    cases h

variable {store : Catalog K M}

lemma Tracks.change (h : tx.Tracks cat) {b : String}
    (hother : ∀ m, baseOf m ≠ b → store[m]? = tx.store[m]?)
    (hrec : ∀ n k, baseOf n = b → (store.Records n k ↔ tx.store.Records n k))
    (hnoted : ∀ n k, baseOf n = b → cat.Records n k → tx.pendingConstraints[k.name]? = some k) :
    Tracks cat { tx with store := store } where
  records n k := by
    by_cases hb : baseOf n = b
    · exact (hrec n k hb).trans (h.records n k)
    · exact (records_congr (hother n hb)).trans (h.records n k)
  noted {n k} hk := by
    by_cases hb : baseOf n = b
    · exact .inl (hnoted n k hb hk)
    · refine (h.noted hk).imp_right fun hsame m hm => ?_
      rw [← hsame m hm]
      exact surface_congr (hother m (hm ▸ hb))
  pending := h.pending

lemma noted_foldl (hc : cat.Sound e) {l : List ConstraintRef}
    {pending : TreeMap String ConstraintRef} (hl : ∀ k ∈ l, ∃ n, cat.Records n k)
    (hpending : OfRecorded cat pending) :
    OfRecorded cat (l.foldl (fun p k => p.insertIfNew k.name k) pending) ∧
      (∀ {name : String} {k}, pending[name]? = some k →
        (l.foldl (fun p k => p.insertIfNew k.name k) pending)[name]? = some k) ∧
      ∀ k ∈ l, (l.foldl (fun p k => p.insertIfNew k.name k) pending)[k.name]? = some k := by
  induction l generalizing pending with
  | nil => exact ⟨hpending, fun h => h, fun k hk => absurd hk not_mem_nil⟩
  | cons a l ih =>
    obtain ⟨n, hn⟩ := hl a (.head _)
    have hold {name : String} {k : ConstraintRef} (hk : pending[name]? = some k) :
        (pending.insertIfNew a.name a)[name]? = some k := by
      rw [TreeMap.getElem?_insertIfNew, if_neg, hk]
      rintro ⟨heq, hmem⟩
      rw [LawfulEqCmp.compare_eq_iff_eq] at heq
      subst heq
      rw [TreeMap.getElem?_eq_none hmem] at hk
      cases hk
    have hself : (pending.insertIfNew a.name a)[a.name]? = some a := by
      cases hget : pending[a.name]? with
      | none =>
        rw [TreeMap.getElem?_insertIfNew, if_pos]
        refine ⟨ReflCmp.compare_self, fun hmem => ?_⟩
        rw [TreeMap.mem_iff_isSome_getElem?, hget] at hmem
        cases hmem
      | some k =>
        obtain ⟨hname, m, hm⟩ := hpending hget
        obtain rfl := hc.unique hm hn hname
        exact hold hget
    have hnew : OfRecorded cat (pending.insertIfNew a.name a) := by
      intro name k hk
      rw [TreeMap.getElem?_insertIfNew] at hk
      split at hk
      · rename_i hcond
        cases hk
        exact ⟨LawfulEqCmp.compare_eq_iff_eq.mp hcond.1, n, hn⟩
      · exact hpending hk
    obtain ⟨h1, h2, h3⟩ := ih (fun k hk => hl k (mem_cons_of_mem a hk)) hnew
    refine ⟨h1, fun hk => h2 (hold hk), fun k hk => ?_⟩
    rcases mem_cons.mp hk with rfl | hk
    · exact h2 hself
    · exact h3 k hk

section

variable (hc : cat.Sound e) (h : tx.Tracks cat)
include hc h

lemma Tracks.noteConstraints {n : String}
    {rel : StoredRelation K M} (hrel : tx.store[n]? = some rel) :
    Tracks cat (tx.noteConstraints rel.toRelationHandle) ∧
      ∀ k, cat.Records n k →
        (tx.noteConstraints rel.toRelationHandle).pendingConstraints[k.name]? = some k := by
  have hrec (k : ConstraintRef) (hk : k ∈ rel.constraints) : ∃ n, cat.Records n k :=
    ⟨n, (h.records n k).mp ⟨rel, hrel, hk⟩⟩
  obtain ⟨h1, h2, h3⟩ := noted_foldl hc hrec h.pending
  refine ⟨⟨h.records, fun hk => (h.noted hk).imp_left h2, h1⟩, fun k hk => ?_⟩
  obtain ⟨s, hs, hks⟩ := (h.records n k).mpr hk
  cases hrel.symm.trans hs
  exact h3 k hks

lemma Tracks.change_bare (hother : ∀ m, m ≠ n.text → store[m]? = tx.store[m]?)
    (hold : ∀ k, ¬ tx.store.Records n.text k) (hnew : ∀ k, ¬ store.Records n.text k) :
    Tracks cat { tx with store := store } := by
  refine h.change (b := n.text) (fun m hm => hother m ?_) (fun m k _ => ?_) fun m k hm hk => ?_
  · rintro rfl
    exact hm (baseOf_compound n)
  · by_cases hm : m = n.text
    · subst hm
      exact iff_of_false (hnew k) (hold k)
    · exact records_congr (hother m hm)
  · refine absurd ((h.records _ k).mpr ?_) (hold k)
    rw [← hm]
    exact hc.records_baseOf hk

lemma Tracks.destroyRelation (hok : tx.store.destroyRelation n.text = .ok store) :
    Tracks cat { tx with store := store } := by
  obtain ⟨r, hr, hbare, rfl⟩ := destroyRelation_eq_ok hok
  exact h.change_bare hc (fun _ hm => get_erase_of_ne hm)
    (fun _ => not_records_of_some hr hbare)
    fun _ => not_records_of_none get_erase_self

variable {target : InputRelationHandle}

lemma Tracks.createTarget
    {puts rms : List InputProgram} (hok : createTarget e tx target puts rms = .ok tx') :
    tx'.Tracks cat := by
  obtain ⟨store, hstore, hok⟩ := bind_ok hok
  cases hok
  obtain ⟨hnone, rfl⟩ := createRelation_eq_ok hstore
  exact h.change_bare hc (fun _ hm => get_insert_of_ne hm)
    (fun _ => not_records_of_none hnone)
    fun _ => not_records_of_some get_insert_self rfl

end

/-! ## Triggers and mutations -/

/-- A way of running queries keeps track of the committed catalog. -/
def Keeps (cat : Catalog K M) (run : RunQuery K M) : Prop :=
  ∀ {tx tx' : SessionTx K M} {prog : InputProgram}, tx.Tracks cat → run tx prog = .ok tx' →
    tx'.Tracks cat

variable {run : Option (RunQuery K M)}

lemma Tracks.fireTriggers (hrun : ∀ f, run = some f → Keeps cat f) (h : tx.Tracks cat)
    {inject : InputProgram → Except Refusal InputProgram} {triggers : List InputProgram}
    (hok : fireTriggers run name inject tx triggers = .ok tx') : tx'.Tracks cat := by
  unfold Kyzo.fireTriggers at hok
  split at hok
  · cases hok
    exact h
  · cases hok
  · rename_i f _
    refine foldlM_keeps (fun s hs prog _ t ht => ?_) h hok
    obtain ⟨injected, -, ht⟩ := bind_ok ht
    exact hrun f rfl hs ht

section

variable (hc : cat.Sound e)

include hc

section

variable (hrun : ∀ f, run = some f → Keeps cat f)

include hrun

variable {op : RelationOp}

section

variable (h : tx.Tracks cat)
include h

variable {writeVld : WriteValidity} {rows : List Tuple}

lemma Tracks.mutateRelation {rel : StoredRelation K M}
    (hnoted : op.isCheck = false → ∀ k, cat.Records target.name.text k →
      tx.pendingConstraints[k.name]? = some k)
    (hok : mutateRelation e env run tx rel op target writeVld rows = .ok tx') : tx'.Tracks cat := by
  unfold Kyzo.mutateRelation at hok
  simp only [guard_eq_ok] at hok
  have hok := hok.2
  cases hop : op.isCheck with
  | true =>
    rw [hop] at hok
    obtain ⟨-, -, hok⟩ := bind_ok hok
    cases hok
    exact h
  | false =>
    rw [hop] at hok
    obtain ⟨keyspaces, -, hok⟩ := bind_ok hok
    obtain ⟨written, -, hok⟩ := bind_ok hok
    refine Tracks.fireTriggers hrun (h.change (b := target.name.text) (fun m hm => ?_)
      (fun m k _ => ?_) fun m k hm hk => ?_) hok
    · -- neither the relation nor one of its indices
      rw [get_setKeyspaces_of_notMem, get_setKeyspace, if_neg]
      · rintro rfl
        exact hm (baseOf_compound target.name)
      · intro hmem
        rw [RelationHandle.baseOf_indexNames hmem, baseOf_compound] at hm
        exact hm rfl
    · rw [records_setKeyspaces, records_setKeyspace]
    · refine hnoted hop k ?_
      rw [← hm]
      exact hc.records_baseOf hk

variable {depth : ℕ}

lemma Tracks.replaceRelation {out : SessionTx K M × List InputProgram × List InputProgram}
    (hok : replaceRelation run depth tx n.text = .ok out) : out.1.Tracks cat := by
  unfold Kyzo.replaceRelation at hok
  simp only [guard_eq_ok] at hok
  have hok := hok.2
  split at hok
  · cases hok
    exact h
  · have hok := (guard_eq_ok.mp (guard_eq_ok.mp hok).2).2
    obtain ⟨fired, hfired, hok⟩ := bind_ok hok
    obtain ⟨store, hstore, hok⟩ := bind_ok hok
    cases hok
    exact (h.fireTriggers hrun hfired).destroyRelation hc hstore

lemma Tracks.prepareTarget (hok : prepareTarget e run depth tx op target = .ok tx') :
    tx'.Tracks cat := by
  unfold Kyzo.prepareTarget at hok
  split at hok
  · obtain ⟨out, hout, hok⟩ := bind_ok hok
    exact (h.replaceRelation hc hrun hout).createTarget hc hok
  · exact h.createTarget hc hok
  · cases hok
    exact h

lemma Tracks.executeRelation
    (hok : executeRelation e env run depth tx rows op target writeVld = .ok tx') :
    tx'.Tracks cat := by
  obtain ⟨ready, hready, hok⟩ := bind_ok hok
  obtain ⟨rel, hrel, hok⟩ := bind_ok hok
  have hready := h.prepareTarget hc hrun hready
  cases hop : op.isCheck with
  | true =>
    rw [hop] at hok
    exact hready.mutateRelation hc hrun (fun hfalse => by rw [hop] at hfalse; cases hfalse) hok
  | false =>
    rw [hop] at hok
    obtain ⟨hnote, hnoted⟩ := hready.noteConstraints hc (getRelation_eq_ok.mp hrel)
    exact hnote.mutateRelation hc hrun (fun _ => hnoted) hok

end

lemma keeps_runQueryWith (depth : ℕ) : Keeps cat (runQueryWith e env options run depth) := by
  intro tx tx' prog h hok
  unfold runQueryWith at hok
  split at hok
  · obtain ⟨_, _, hok⟩ := bind_ok hok
    obtain ⟨_, _, hok⟩ := bind_ok hok
    cases hok
    exact h
  · obtain ⟨_, _, hok⟩ := bind_ok hok
    obtain ⟨_, _, hok⟩ := bind_ok hok
    obtain ⟨rows, _, hok⟩ := bind_ok hok
    exact h.executeRelation hc hrun hok

end

lemma keeps_runQuery (left : ℕ) : Keeps cat (runQuery e env options left) := by
  induction left with
  | zero =>
    refine keeps_runQueryWith hc (fun f hf => ?_) _
    cases hf
  | succ left ih =>
    refine keeps_runQueryWith hc (fun f hf => ?_) _
    cases hf
    exact ih

end

/-! ## The denial check -/

lemma pure_of_validate {opts : QueryOutOptions}
    (h : validateConstraintPurity name opts = .ok ()) : opts.limit = none ∧ opts.offset = none := by
  unfold validateConstraintPurity at h
  simp only [guard_eq_ok] at h
  have hlimit := h.2.2.1
  rw [Bool.not_eq_true, Bool.or_eq_false_iff, isSome_eq_false_iff, isSome_eq_false_iff,
    isNone_iff_eq_none, isNone_iff_eq_none] at hlimit
  exact hlimit

lemma derives_of_witnesses {prog : InputProgram}
    (hpure : validateConstraintPurity name prog.outOpts = .ok ())
    (h : evalConstraintBody e env options store prog = .ok []) :
    e.derives env store.surface prog = [] := by
  obtain ⟨rows, hrows, hnil⟩ := map_eq_ok.mp h
  obtain ⟨hlimit, hoffset⟩ := pure_of_validate hpure
  rw [← e.compileAndEval_eq env options store prog rows hlimit hoffset hrows]
  rw [destutter_eq_nil] at hnil
  exact length_eq_zero_iff.mp (by rw [← length_mergeSort, hnil, length_nil])

lemma derives_of_check {noted : String × ConstraintRef}
    (h : checkConstraint e env options store noted = .ok ()) :
    e.derives env store.surface noted.2.program = [] := by
  obtain ⟨⟨⟩, hpure, h⟩ := bind_ok h
  obtain ⟨witnesses, hwitnesses, h⟩ := bind_ok h
  by_cases hnil : witnesses = []
  · subst hnil
    exact derives_of_witnesses hpure hwitnesses
  · rw [if_pos hnil] at h
    cases h

lemma Tracks.sound (hc : cat.Sound e) (h : tx.Tracks cat)
    (hok : enforceConstraints e env options tx = .ok ()) : tx.store.Sound e := by
  refine hc.transfer h.records fun n k hk env' => ?_
  by_cases hpending : tx.pendingConstraints[k.name]? = some k
  · have hmem : (k.name, k) ∈ tx.pendingConstraints.toList :=
      TreeMap.mem_toList_iff_getElem?_eq_some.mpr hpending
    rw [hc.steady hk env' env]
    exact derives_of_check (forM_eq_ok.mp hok _ hmem)
  · refine hc.derives_eq hk (fun m hm => ?_) env'
    have huntouched := (h.noted hm).resolve_left hpending
    refine huntouched m ?_
    rw [baseOf_baseOf]

end SessionTx

/-! ## Scripts and system operations -/

namespace Catalog

variable (h : cat.Sound e)
include h

lemma Sound.executeSingle {prog : InputProgram}
    (hok : executeSingle e env options cat prog = .ok cat') : cat'.Sound e := by
  unfold Kyzo.executeSingle at hok
  split at hok
  · cases hok
    exact h
  · obtain ⟨tx, htx, hok⟩ := bind_ok (guard_eq_ok.mp hok).2
    obtain ⟨⟨⟩, hcheck, hok⟩ := bind_ok hok
    cases hok
    exact (SessionTx.keeps_runQuery h _ SessionTx.tracks_newWrite htx).sound h hcheck

variable {l : List String}

omit h in
lemma attachTo_foldlM (h : l.foldlM (attachTo k) cat = .ok cat') :
    (∀ m, cat'.surface m = cat.surface m) ∧ ∀ m j, cat'.Records m j ↔
      cat.Records m j ∨ j = k ∧ m ∈ l := by
  induction l generalizing cat with
  | nil =>
    cases h
    simp
  | cons rel l ih =>
    obtain ⟨d, hd, h⟩ := bind_ok h
    obtain ⟨handle, hget, hd⟩ := bind_ok hd
    have hget := getRelation_eq_ok.mp hget
    obtain rfl := ok.inj (guard_eq_ok.mp hd).2
    obtain ⟨hsurface, hrec⟩ := ih h
    refine ⟨fun m => (hsurface m).trans ?_, fun m j => (hrec m j).trans ?_⟩
    · by_cases hm : m = rel
      · subst hm
        rw [surface, surface, get_insert_self, hget]
        rfl
      · exact surface_congr (get_insert_of_ne hm)
    · by_cases hm : m = rel
      · subst hm
        simp only [Records, get_insert_self, hget, some.injEq, exists_eq_left', mem_mergeSort,
          mem_append, mem_cons, true_or, and_true]
        tauto
      · rw [records_congr (get_insert_of_ne hm), mem_cons, or_iff_right hm]

lemma Sound.createConstraint
    (hbased : ∀ m ∈ storedReadSet k.program, baseOf m ∈ storedReadSet k.program)
    (hsteady : e.Steady k.program) (hok : sysCreateConstraint e env options cat k = .ok cat') :
    cat'.Sound e := by
  obtain ⟨⟨⟩, hpure, hok⟩ := bind_ok hok
  have hok := (guard_eq_ok.mp hok).2
  split at hok
  · cases hok
  · unfold attachConstraint at hok
    split at hok
    · cases hok
    · rename_i hfree
      obtain ⟨witnesses, hwitnesses, hok⟩ := bind_ok hok
      obtain ⟨hnil, hok⟩ := guard_eq_ok.mp hok
      obtain rfl := not_not.mp hnil
      obtain ⟨hsurface, hrec⟩ := attachTo_foldlM hok
      have hderives (env' : Env) : e.derives env' cat.surface k.program = [] := by
        rw [hsteady env' env]
        exact SessionTx.derives_of_witnesses hpure hwitnesses
      have hname {n : String} {j : ConstraintRef} (hj : cat.Records n j) : j.name ≠ k.name := by
        obtain ⟨r, hr, hjr⟩ := hj
        intro heq
        have hmem : (n, r) ∈ cat.toList := TreeMap.mem_toList_iff_getElem?_eq_some.mpr hr
        have hcarries := List.find?_eq_none.mp hfree _ hmem
        exact hcarries (any_eq_true.mpr ⟨j, hjr, decide_eq_true heq⟩)
      have hmem {n : String} : n ∈ (storedReadSet k.program).toList ↔ n ∈ storedReadSet k.program :=
        TreeSet.mem_toList
      refine ⟨fun {n j} hj => ?_, fun {n m j} hj hm => ?_, fun {n m j l} hj hl heq => ?_,
        fun {n m j} hj hm => ?_, fun {n j} hj => ?_, fun {n j} hj env' => ?_⟩
      · obtain hj | ⟨rfl, hj⟩ := (hrec n j).mp hj
        · exact h.reads hj
        · exact hmem.mp hj
      · obtain hj | ⟨rfl, -⟩ := (hrec n j).mp hj
        · exact (hrec m j).mpr (.inl (h.mirrored hj hm))
        · exact (hrec m j).mpr (.inr ⟨rfl, hmem.mpr hm⟩)
      · obtain hj | ⟨rfl, -⟩ := (hrec n j).mp hj
        · obtain hl | ⟨rfl, -⟩ := (hrec m l).mp hl
          · exact h.unique hj hl heq
          · exact absurd heq (hname hj)
        · obtain hl | ⟨rfl, -⟩ := (hrec m l).mp hl
          · exact absurd heq.symm (hname hl)
          · rfl
      · obtain hj | ⟨rfl, -⟩ := (hrec n j).mp hj
        · exact h.based hj hm
        · exact hbased m hm
      · obtain hj | ⟨rfl, -⟩ := (hrec n j).mp hj
        · exact h.steady hj
        · exact hsteady
      · rw [funext hsurface]
        obtain hj | ⟨rfl, -⟩ := (hrec n j).mp hj
        · exact h.denied hj env'
        · exact hderives env'

lemma Sound.detachConstraint (hok : detachConstraint cat name = .ok cat') : cat'.Sound e := by
  unfold Kyzo.detachConstraint at hok
  split at hok
  · cases hok
  · split at hok
    · cases hok
      have hsurface (m : String) : surface (cat.map fun _ r =>
          { r with constraints := r.constraints.filter fun k => k.name ≠ name }) m =
            cat.surface m := by
        rw [surface, TreeMap.getElem?_map, Option.map_map]
        rfl
      have hrec (m : String) (j : ConstraintRef) : Records (cat.map fun _ r =>
          { r with constraints := r.constraints.filter fun k => k.name ≠ name }) m j ↔
            cat.Records m j ∧ j.name ≠ name := by
        rw [Records, Records, TreeMap.getElem?_map]
        cases cat[m]? <;> simp
      refine ⟨fun hj => h.reads ((hrec _ _).mp hj).1, fun hj hm => ?_, fun hj hl heq => ?_,
        fun hj hm => h.based ((hrec _ _).mp hj).1 hm, fun hj => h.steady ((hrec _ _).mp hj).1,
        fun hj env' => ?_⟩
      · obtain ⟨hj, hne⟩ := (hrec _ _).mp hj
        exact (hrec _ _).mpr ⟨h.mirrored hj hm, hne⟩
      · exact h.unique ((hrec _ _).mp hj).1 ((hrec _ _).mp hl).1 heq
      · rw [funext hsurface]
        exact h.denied ((hrec _ _).mp hj).1 env'
    · cases hok

/-! ## Indices -/

omit h in
/-- A step that touches one name, bare before and after, along a list of names. -/
theorem foldlM_bare {f : Catalog K M → String → Except Refusal (Catalog K M)}
    (hf : ∀ {cat cat' n}, f cat n = .ok cat' → (∀ m, m ≠ n → cat'[m]? = cat[m]?) ∧
      ∀ k, ¬ cat.Records n k ∧ ¬ cat'.Records n k) (h : l.foldlM f cat = .ok cat') :
    (∀ m, m ∉ l → cat'[m]? = cat[m]?) ∧ ∀ m ∈ l, ∀ k, ¬ cat.Records m k ∧ ¬ cat'.Records m k := by
  induction l generalizing cat with
  | nil =>
    cases h
    exact ⟨fun _ _ => rfl, fun m hm => absurd hm not_mem_nil⟩
  | cons n l ih =>
    obtain ⟨d, hd, h⟩ := bind_ok h
    obtain ⟨hother, hbare⟩ := hf hd
    obtain ⟨hsame, hnew⟩ := ih h
    refine ⟨fun m hm => ?_, fun m hm k => ?_⟩
    · rw [mem_cons, not_or] at hm
      rw [hsame m hm.2, hother m hm.1]
    · by_cases hmn : m = n
      · subst hmn
        refine ⟨(hbare k).1, ?_⟩
        by_cases hml : m ∈ l
        · exact (hnew m hml k).2
        · rw [records_congr (hsame m hml)]
          exact (hbare k).2
      · rw [← records_congr (hother m hmn)]
        exact hnew m ((mem_cons.mp hm).resolve_left hmn) k

variable (hblind : ∀ k, cat.Records n.text k → e.IndexBlind k.program)
include hblind

lemma Sound.attachAndBackfill {ref : IndexRef M}
    (hok : attachAndBackfill e env cat n ref = .ok cat') : cat'.Sound e := by
  obtain ⟨base, hbase, hok⟩ := bind_ok hok
  have hbase := getRelation_eq_ok.mp hbase
  obtain ⟨d, hd, hok⟩ := bind_ok (guard_eq_ok.mp hok).2
  obtain ⟨keyspaces, -, hok⟩ := bind_ok hok
  cases hok
  obtain ⟨hsame, hnew⟩ := foldlM_bare (fun hd => by
    obtain ⟨hnone, rfl⟩ := createRelation_eq_ok hd
    exact ⟨fun _ hm => get_insert_of_ne hm, fun _ =>
      ⟨not_records_of_none hnone, not_records_of_some get_insert_self rfl⟩⟩) hd
  refine h.of_index (ref.relationNames n.text) hbase
    ((get_setKeyspaces_of_notMem self_notMem_relationNames).trans get_insert_self) rfl rfl
    (fun m hm => ?_) (fun m hm hml => ?_) (fun m hml hm k => ⟨(hnew m hml k).1, ?_⟩)
    fun k hk => hblind k ⟨base, hbase, hk⟩
  · rw [baseOf_relationNames hm, baseOf_compound]
  · rw [get_setKeyspaces_of_notMem hml, get_insert_of_ne hm, hsame m hml]
  · rw [records_setKeyspaces, records_congr (get_insert_of_ne hm)]
    exact (hnew m hml k).2

lemma Sound.removeIndex {idx : String} (hok : removeIndex cat n idx = .ok cat') : cat'.Sound e := by
  obtain ⟨base, hbase, hok⟩ := bind_ok hok
  have hbase := getRelation_eq_ok.mp hbase
  split at hok
  · cases hok
  · rename_i ref _
    obtain ⟨d, hd, hok⟩ := bind_ok hok
    cases hok
    obtain ⟨hsame, hnew⟩ := foldlM_bare (fun hd => by
      obtain ⟨r, hr, hbare, rfl⟩ := destroyRelation_eq_ok hd
      exact ⟨fun _ hm => get_erase_of_ne hm, fun _ =>
        ⟨not_records_of_some hr hbare, not_records_of_none get_erase_self⟩⟩) hd
    refine h.of_index (ref.relationNames n.text) hbase get_insert_self rfl rfl (fun m hm => ?_)
      (fun m hm hml => ?_) (fun m hml hm k => ⟨(hnew m hml k).1, ?_⟩)
      fun k hk => hblind k ⟨base, hbase, hk⟩
    · rw [baseOf_relationNames hm, baseOf_compound]
    · rw [get_insert_of_ne hm, hsame m hml]
    · rw [records_congr (get_insert_of_ne hm)]
      exact (hnew m hml k).2

end Catalog

/-! ## Runs -/

/-- The condition on the steps of a run: a constraint that reads the relation of an index reads its
base too, and no clock or random draw; an index comes or goes where the constraints of its base do
not read through indices. -/
def Catalog.Allowed (e : Engine K M Env Options) (cat : Catalog K M) : DbAction M Env Options → Prop
  | .createConstraint _ _ k =>
    (∀ m ∈ storedReadSet k.program, baseOf m ∈ storedReadSet k.program) ∧ e.Steady k.program
  | .createIndex _ rel _ | .removeIndex rel _ =>
    ∀ k, cat.Records rel.text k → e.IndexBlind k.program
  | _ => True

lemma Catalog.Sound.step (h : cat.Sound e) {a : DbAction M Env Options} (hallowed : cat.Allowed e a)
    (hstep : dbStep e cat a = some cat') : cat'.Sound e := by
  have hok : runAction e cat a = .ok cat' := by
    unfold dbStep at hstep
    cases hrun : runAction e cat a with
    | error err =>
      rw [hrun] at hstep
      cases hstep
    | ok d =>
      rw [hrun] at hstep
      exact congrArg ok (some.inj hstep)
  cases a with
  | script env options prog => exact h.executeSingle hok
  | createConstraint env options k => exact h.createConstraint hallowed.1 hallowed.2 hok
  | removeConstraint name => exact h.detachConstraint hok
  | removeRelation names =>
    exact foldlM_keeps (fun d hd n _ d' hd' => hd.destroyRelation hd') h hok
  | renameRelation pairs =>
    exact foldlM_keeps (fun d hd p _ d' hd' => hd.renameRelation hd') h hok
  | setTriggers name puts rms replaces => exact h.setRelationTriggers hok
  | setAccessLevel names level =>
    exact foldlM_keeps (fun d hd n _ d' hd' => hd.setAccessLevel hd') h hok
  | createIndex env rel ref => exact h.attachAndBackfill hallowed hok
  | removeIndex rel idx => exact h.removeIndex hallowed hok

lemma Catalog.sound_empty : Sound e (∅ : Catalog K M) := by
  have hnone {n : String} {k : ConstraintRef} : ¬ Records (∅ : Catalog K M) n k :=
    not_records_of_none TreeMap.getElem?_emptyc
  constructor <;> exact fun h => absurd h hnone

/-- **Every recorded constraint derives nothing from the committed state.** -/
theorem constraints_hold {actions : List (DbAction M Env Options)}
    (run : StepRun (dbStep e) (Allowed e) ∅ actions cat) {name : String} {k : ConstraintRef}
    (hk : cat.Records name k) (env : Env) : e.derives env cat.surface k.program = [] :=
  (run.invariant sound_empty fun h hallowed hstep => h.step hallowed hstep).denied hk env

/-! ## A constraint on the relation of an index -/

/-- The value of a unification with a constant. -/
def constOf : InputAtom → Option DataValue
  | .unification ⟨_, .const v, false⟩ => some v
  | _ => none

/-- The rows of a body that scans one relation, for all rows or those that end in a constant, or
that is a row of constants. -/
def scanBody (s : Surface (List Tuple) Unit) : List InputAtom → List Tuple
  | [.relation atom] => ((s atom.name.name).map RelationView.keyspace).getD []
  | [.relation atom, .unification ⟨_, .const v, false⟩] =>
    (((s atom.name.name).map RelationView.keyspace).getD []).filter (·.getLast? = some v)
  | body => (body.mapM constOf).toList

/-- The rows of a program whose entry is one such rule. -/
def scanRows (s : Surface (List Tuple) Unit) (prog : InputProgram) : List Tuple :=
  match prog.entry with
  | .rules [rule] => scanBody s rule.body
  | _ => []

/-- The index row of a row. -/
def indexRow (ref : IndexRef Unit) (row : Tuple) : Option Tuple :=
  match ref.kind with
  | .plain mapper => projectMapper mapper row
  | _ => none

lemma scanRows_local (s t : Surface (List Tuple) Unit) (prog : InputProgram)
    (h : ∀ n ∈ storedReadSet prog, s.SameAt t n) : scanRows s prog = scanRows t prog := by
  unfold scanRows
  split
  · rename_i rule hentry
    have hview (atom : InputRelationApplyAtom) (rest : List InputAtom)
        (hbody : rule.body = .relation atom :: rest) : s atom.name.name = t atom.name.name := by
      refine (h _ ?_).1
      rw [storedReadSet, TreeSet.mem_ofList, contains_iff_mem]
      refine mem_flatMap.mpr ⟨_, mem_append_right _ (mem_singleton_self _), ?_⟩
      simp [hentry, storedReads, hbody, InputAtom.storedReadsAll, InputAtom.storedReads]
    unfold scanBody
    split
    · rw [hview _ _ ‹_›]
    · rw [hview _ _ ‹_›]
    · rfl
  · rfl

/-- An engine for such programs: keyspaces are lists of rows, and a mutation puts its rows. -/
def scanEngine : Engine (List Tuple) Unit Unit Unit where
  emptyKeyspace := []
  derives _ s prog := scanRows s prog
  derives_local _ s t prog h := scanRows_local s t prog h
  compileAndEval _ _ cat prog := .ok (scanRows cat.surface prog)
  compileAndEval_eq _ _ _ _ _ _ _ h := (ok.inj h).symm
  finalizeRows _ rows := .ok rows
  makeConstRules _ _ prog := .ok prog
  ensureRows _ _ _ _ _ := .ok ()
  writeRows _ _ _ _ rel keyspaces rows := .ok
    { own := rel.keyspace ++ rows
      indices := (rel.indices.zip keyspaces).map fun p => p.2 ++ rows.filterMap (indexRow p.1)
      newTuples := rows
      oldTuples := [] }
  indexMetadata base _ _ := base.metadata
  backfill _ base ref := .ok [base.keyspace.filterMap (indexRow ref)]

/-- The relation `stock`, of a key and a value. -/
def stockName : CompoundIdent := ⟨"stock", by decide⟩

def stockTarget : InputRelationHandle := ⟨stockName, ⟨[⟨"k"⟩], [⟨"v"⟩]⟩, [], []⟩

/-- A program of one rule. -/
def ruleProgram (head : List Symbol) (body : List InputAtom)
    (store : Option (InputRelationHandle × RelationOp × WriteValidity)) : InputProgram :=
  ⟨.progEntry, .rules [⟨head, [], body⟩], ∅,
    { QueryOutOptions.default with storeRelation := store }, false⟩

/-- `?[k, v] <- [] :create stock {k => v}` -/
def createStock : InputProgram :=
  { ruleProgram [] [] (some (stockTarget, .create, .now)) with
    entry := .fixed ⟨⟨"Constant"⟩, [], [⟨"k"⟩, ⟨"v"⟩], 2⟩ }

/-- `?[k, v] := k = true, v = null :put stock {k, v}` -/
def putStock : InputProgram :=
  ruleProgram [⟨"k"⟩, ⟨"v"⟩]
    [.unification ⟨⟨"k"⟩, .const (.bool true), false⟩, .unification ⟨⟨"v"⟩, .const .null, false⟩]
    (some (stockTarget, .put, .now))

/-- A denial of every row of a relation of two columns. -/
def denyRows (relation : String) : ConstraintRef :=
  ⟨"no_rows", ruleProgram [⟨"x"⟩, ⟨"y"⟩]
    [.relation ⟨⟨relation⟩, [.binding ⟨"x"⟩ .unresolved, .binding ⟨"y"⟩ .unresolved], none⟩] none⟩

/-- `?[x, y] := *stock[x, y], y = true` -/
def denyTrue : ConstraintRef :=
  ⟨"no_true", ruleProgram [⟨"x"⟩, ⟨"y"⟩]
    [.relation ⟨⟨"stock"⟩, [.binding ⟨"x"⟩ .unresolved, .binding ⟨"y"⟩ .unresolved], none⟩,
      .unification ⟨⟨"y"⟩, .const (.bool true), false⟩] none⟩

/-- `::index create stock:by_value {v}` -/
def indexStock : DbAction Unit Unit Unit := .createIndex () stockName ⟨"by_value", .plain [1, 0]⟩

/-- The relation is created, and its index. -/
def createIndexed : List (DbAction Unit Unit Unit) := [.script () () createStock, indexStock]

/-- What the constraints of a relation derive. -/
def deniedRows (cat : Catalog (List Tuple) Unit) (name : String) :
    Option (List (String × List Tuple)) :=
  cat[name]?.map fun r => r.constraints.map fun k => (k.name, scanRows cat.surface k.program)

/-- A put into the base relation is accepted while a constraint denies every row of its index: the
constraint is recorded, and derives the row. -/
theorem constraint_on_index_violated : ((runSteps (dbStep scanEngine) ∅ (createIndexed ++
        [.createConstraint () () (denyRows "stock:by_value"), .script () () putStock])).bind
      fun cat => deniedRows cat "stock:by_value") = some [("no_rows", [[.null, .bool true]])] := by
  decide +kernel

/-- The relation and its index, a constraint on the relation, then a put that it accepts. -/
theorem constraints_hold_stock : ∃ actions cat k,
    StepRun (dbStep scanEngine) (Allowed scanEngine) ∅ actions cat ∧
      cat["stock"]?.map (·.keyspace) = some [[.bool true, .null]] ∧
      cat.Records "stock" k ∧ scanEngine.derives () cat.surface k.program = [] := by
  obtain ⟨created, hcreated, hbare⟩ := map_eq_some_iff.mp
    (show (runSteps (dbStep scanEngine) ∅ [.script () () createStock]).map
      (deniedRows · "stock") = some (some []) by decide +kernel)
  obtain ⟨indexed, hindexed⟩ := isSome_iff_exists.mp
    (show (runSteps (dbStep scanEngine) ∅ createIndexed).isSome by decide +kernel)
  obtain ⟨denied, hdenied⟩ := isSome_iff_exists.mp
    (show (runSteps (dbStep scanEngine) ∅
      (createIndexed ++ [.createConstraint () () denyTrue])).isSome by decide +kernel)
  obtain ⟨written, hwritten, hstock⟩ := map_eq_some_iff.mp
    (show (runSteps (dbStep scanEngine) ∅ (createIndexed ++
        [.createConstraint () () denyTrue] ++ [.script () () putStock])).map
      (fun cat => (cat["stock"]?.map (·.keyspace), deniedRows cat "stock")) =
        some (some [[.bool true, .null]], some [("no_true", [])]) by decide +kernel)
  have hbase : StepRun (dbStep scanEngine) (Allowed scanEngine) ∅ _ created :=
    (@StepRun.nil _ _ (dbStep scanEngine) (Allowed scanEngine) ∅).extend _
      (by simp [Allowed]) hcreated
  have hblind : Allowed scanEngine created indexStock := by
    rintro k ⟨r, hr, hmem⟩
    obtain ⟨s, hs, hnil⟩ := map_eq_some_iff.mp hbare
    cases hr.symm.trans hs
    rw [map_eq_nil_iff.mp hnil] at hmem
    exact absurd hmem not_mem_nil
  have hbased : Allowed scanEngine indexed (.createConstraint () () denyTrue) := by
    refine ⟨fun m hm => ?_, fun _ _ _ => rfl⟩
    have hname : m = stockName.text := by
      rw [storedReadSet] at hm
      simpa [denyTrue, ruleProgram, stockName, InputProgram.iterAll,
        storedReads, InputAtom.storedReadsAll, InputAtom.storedReads] using hm
    rwa [hname, baseOf_compound, ← hname]
  have hfree : Allowed scanEngine denied (.script () () putStock) := trivial
  have hrun := ((hbase.snoc hblind ((runSteps_concat hcreated indexStock).symm.trans hindexed)).snoc
    hbased ((runSteps_concat hindexed _).symm.trans hdenied)).snoc
    hfree ((runSteps_concat hdenied _).symm.trans hwritten)
  obtain ⟨hrows, hconstraints⟩ := Prod.mk.inj hstock
  obtain ⟨r, hr, hlist⟩ := map_eq_some_iff.mp hconstraints
  obtain ⟨k, hk, -⟩ := mem_map.mp (hlist ▸ mem_singleton_self ("no_true", []))
  exact ⟨_, written, k, hrun, hrows, ⟨r, hr, hk⟩, constraints_hold hrun ⟨r, hr, hk⟩ ()⟩

end Kyzo
