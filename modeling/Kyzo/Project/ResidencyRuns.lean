import Kyzo.Project.Residency

/-!
# Soundness of served segments

A generation stands for one state of a relation only where every reader witnessed it with a current
snapshot and no writer between its bump and its commit.  Over such runs each record of a generation
(a call that still goes by it, or a segment sealed at it) has the same rows, and a served segment
holds the rows of the caller's own snapshot.
-/

namespace Kyzo

open List Option Function

namespace Db

attribute [local simp] stepWriter stepCall

/-! ## Records of a generation -/

/-- A writer has bumped the relation and has neither committed nor aborted. -/
def Pending (db : Db) (rel : RelationId) : Prop :=
  ∃ w writer, db.writers w = some writer ∧ rel ∈ writer.touched ∧ rel ∉ writer.toBump

/-- Rows that are taken to be those of a relation at a generation. -/
inductive Record (db : Db) (rel : RelationId) (g : ℕ) : List Tuple → Prop
  | call {c : ℕ} {call : Call} (known : db.calls c = some call) (same : call.rel = rel)
      (live : call.stage.live = some g) : Record db rel g call.rows
  | segment {segment : Segment} (known : db.segments.segments rel = some (segment, g)) :
      Record db rel g segment.rows

/-- The condition on a step: a generation is witnessed when no writer of the relation stands between
its bump and its commit, through a snapshot that shows the committed rows. -/
def Quiet (db : Db) : Action → Prop
  | .witness _ r rel =>
    ¬ db.Pending rel ∧ ∀ snapshot, db.readers r = some snapshot → snapshot rel = db.committed rel
  | _ => True

/-- What holds in every state of a run of quiet steps. -/
structure Sound (db : Db) : Prop where
  retired : ∀ rel, db.retired rel = true → db.committed rel = none
  toEvict : ∀ rel ∈ db.toEvict, db.retired rel = true
  current : ∀ {rel g rows}, db.Record rel g rows → db.retired rel = false →
    g ≤ db.mark rel ∧ (g = db.mark rel → ¬ db.Pending rel ∧ db.committed rel = some rows)
  agree : ∀ {rel g rows rows'}, db.Record rel g rows → db.Record rel g rows' → rows = rows'
  served : ∀ {c call segment}, db.calls c = some call → call.stage.segment = some segment →
    segment.rows = call.rows

/-- How a step may treat a relation: its generation moves on, or a writer that had bumped it
commits, or nothing changes but writers that leave. -/
def Keeps (db db' : Db) (rel : RelationId) : Prop :=
  db.mark rel < db'.mark rel ∨ (db.Pending rel ∧ db.mark rel ≤ db'.mark rel) ∨
    (db'.mark rel = db.mark rel ∧ (db'.Pending rel → db.Pending rel) ∧
      db'.committed rel = db.committed rel)

variable {rel : RelationId} {db db' : Db} {rows : List Tuple} {g : ℕ}

lemma Keeps.current (h : db.Keeps db' rel)
    (hcur : g ≤ db.mark rel ∧ (g = db.mark rel → ¬ db.Pending rel ∧ db.committed rel = some rows)) :
    g ≤ db'.mark rel ∧ (g = db'.mark rel → ¬ db'.Pending rel ∧ db'.committed rel = some rows) := by
  obtain ⟨hle, hat⟩ := hcur
  obtain hlt | ⟨hpending, hmark⟩ | ⟨hmark, hpending, hcommitted⟩ := h
  · exact ⟨by omega, fun heq => absurd heq (by omega)⟩
  · refine ⟨by omega, fun heq => ?_⟩
    exact absurd hpending (hat (by omega)).1
  · rw [hmark, hcommitted]
    exact ⟨hle, fun heq => ⟨fun hp => (hat heq).1 (hpending hp), (hat heq).2⟩⟩

/-- **The frame of a step**: where a step makes no new record, a sound state stays sound. -/
theorem Sound.frame (h : db.Sound)
    (hretired : ∀ rel, db'.retired rel = true → db'.committed rel = none)
    (hevict : ∀ rel ∈ db'.toEvict, db'.retired rel = true)
    (hkeeps : ∀ rel, db'.retired rel = false → db.retired rel = false ∧ db.Keeps db' rel)
    (hrecord : ∀ {rel g rows}, db'.Record rel g rows → db.Record rel g rows)
    (hserved : ∀ {c call segment}, db'.calls c = some call → call.stage.segment = some segment →
      segment.rows = call.rows) : db'.Sound where
  retired := hretired
  toEvict := hevict
  current := fun hr hlive =>
    (hkeeps _ hlive).2.current (h.current (hrecord hr) (hkeeps _ hlive).1)
  agree := fun hr hr' => h.agree (hrecord hr) (hrecord hr')
  served := hserved

lemma Record.congr (h : db'.Record rel g rows) (hcalls : db'.calls = db.calls)
    (hsegments : db'.segments.segments = db.segments.segments) : db.Record rel g rows := by
  obtain ⟨known, same, live⟩ | known := h
  · exact .call (hcalls ▸ known) same live
  · exact .segment (hsegments ▸ known)

/-! ## The steps of a writer -/

variable {w : ℕ}

lemma Pending.of_erase (hwriters : db'.writers = update db.writers w none) (h : db'.Pending rel) :
    db.Pending rel := by
  obtain ⟨v, writer, hv, htouched, hbump⟩ := h
  rw [hwriters, update_apply] at hv
  split_ifs at hv
  exact ⟨v, writer, hv, htouched, hbump⟩

variable {writer : Writer}

lemma Pending.of_begin (hwriters : db'.writers = update db.writers w (some writer))
    (hfresh : writer.toBump = writer.touched) (h : db'.Pending rel) : db.Pending rel := by
  obtain ⟨v, other, hv, htouched, hbump⟩ := h
  rw [hwriters, update_apply] at hv
  split_ifs at hv with heq
  · cases hv
    exact absurd (hfresh ▸ htouched) hbump
  · exact ⟨v, other, hv, htouched, hbump⟩

lemma Sound.writers {db : Db} (h : db.Sound) {writers : ℕ → Option Writer}
    (hpending : ∀ rel, Db.Pending { db with writers := writers } rel → db.Pending rel) :
    Db.Sound { db with writers := writers } :=
  h.frame h.retired h.toEvict (fun rel hlive => ⟨hlive, .inr (.inr ⟨rfl, hpending rel, rfl⟩)⟩)
    (fun hr => hr.congr rfl rfl) h.served

lemma Sound.bump (h : db.Sound) (hw : db.writers w = some writer)
    (hstep : db.stepWriter w writer (.bump w rel) = some db') : db'.Sound := by
  simp only [stepWriter] at hstep
  split_ifs at hstep
  cases hstep
  refine h.frame h.retired h.toEvict (fun r hlive => ⟨hlive, ?_⟩) (fun hr => hr.congr rfl rfl)
    h.served
  by_cases heq : r = rel
  · subst heq
    left
    have hmark : (db.segments.bumpBeforeCommit r).witnessAfterSnapshot r = db.mark r + 1 :=
      update_self ..
    exact lt_of_lt_of_eq (Nat.lt_succ_self _) hmark.symm
  · refine .inr (.inr ⟨update_of_ne heq _ _, ?_, rfl⟩)
    rintro ⟨v, other, hv, htouched, hbump⟩
    change update db.writers w _ v = _ at hv
    rw [update_apply] at hv
    split_ifs at hv with hvw
    · cases hv
      refine ⟨w, writer, hw, htouched, fun hmem => hbump ?_⟩
      exact mem_filter.mpr ⟨hmem, by simpa using heq⟩
    · exact ⟨v, other, hv, htouched, hbump⟩

lemma Writer.apply_of_notMem {committed : Snapshot}
    (htouched : rel ∉ writer.touched) (hdestroys : rel ∉ writer.destroys) :
    writer.apply committed rel = committed rel := by
  have hfind : writer.writes.find? (fun entry => entry.1 = rel) = none := by
    refine List.find?_eq_none.mpr fun entry hentry => ?_
    rw [decide_eq_true_iff]
    rintro rfl
    exact htouched (mem_map_of_mem hentry)
  rw [Writer.apply, if_neg hdestroys, hfind]

lemma Sound.commit (h : db.Sound) (hw : db.writers w = some writer)
    (hstep : db.stepWriter w writer (.commit w) = some db') : db'.Sound := by
  simp only [stepWriter] at hstep
  split_ifs at hstep with hready
  cases hstep
  obtain ⟨hbumped, htouched⟩ := hready
  refine h.frame ?_ ?_ ?_ (fun hr => hr.congr rfl rfl) h.served
  · intro rel hretired
    by_cases hdestroyed : rel ∈ writer.destroys
    · exact if_pos hdestroyed
    · have hbefore : db.retired rel = true := by simpa [hdestroyed] using hretired
      have hfree : rel ∉ writer.touched := fun hmem => by
        rw [htouched rel hmem] at hbefore
        exact Bool.noConfusion hbefore
      exact (Writer.apply_of_notMem hfree hdestroyed).trans (h.retired rel hbefore)
  · intro rel hmem
    obtain hold | hnew := mem_append.mp hmem
    · simp [h.toEvict rel hold]
    · simp [hnew]
  · intro rel hlive
    obtain ⟨hbefore, hkept⟩ : db.retired rel = false ∧ rel ∉ writer.destroys := by simpa using hlive
    refine ⟨hbefore, ?_⟩
    -- The writer has made every bump: what it touched, it had pending.
    by_cases hmem : rel ∈ writer.touched
    · exact .inr (.inl ⟨⟨w, writer, hw, hmem, by simp [hbumped]⟩, le_rfl⟩)
    · exact .inr (.inr ⟨rfl, Pending.of_erase rfl, Writer.apply_of_notMem hmem hkept⟩)

lemma Sound.evict {db : Db} (h : db.Sound) (hmem : rel ∈ db.toEvict) : Db.Sound { db with
      segments := db.segments.evict rel
      toEvict := db.toEvict.filter (· ≠ rel) } := by
  refine h.frame h.retired (fun r hr => h.toEvict r (mem_of_mem_filter hr)) ?_ ?_ h.served
  · intro r hlive
    have hne : r ≠ rel := by
      rintro rfl
      exact Bool.noConfusion ((h.toEvict r hmem).symm.trans hlive)
    exact ⟨hlive, .inr (.inr ⟨update_of_ne hne _ _, id, rfl⟩)⟩
  · intro r g rows hr
    obtain ⟨known, same, live⟩ | known := hr
    · exact .call known same live
    · change update db.segments.segments rel none r = _ at known
      rw [update_apply] at known
      split_ifs at known
      exact .segment known

/-! ## The steps of a call -/

variable {call : Call} {c : ℕ} {db : Db} {stage : Stage}

lemma Record.of_setStage (h : (db.setStage c call stage).Record rel g rows) :
    db.Record rel g rows ∨ (call.rel = rel ∧ stage.live = some g ∧ rows = call.rows) := by
  obtain ⟨known, same, live⟩ | known := h
  · rename_i d other
    change update db.calls c _ d = _ at known
    rw [update_apply] at known
    split_ifs at known
    · cases known
      exact .inr ⟨same, live, rfl⟩
    · exact .inl (.call known same live)
  · exact .inl (.segment known)

variable {c : ℕ} {segment : Segment}

variable (h : db.Sound)
include h

lemma Sound.served_setStage {d : ℕ} {call other : Call}
    (hsegment : ∀ segment, stage.segment = some segment → segment.rows = call.rows)
    (hd : (db.setStage c call stage).calls d = some other)
    (hseg : other.stage.segment = some segment) : segment.rows = other.rows := by
  change update db.calls c _ d = _ at hd
  rw [update_apply] at hd
  split_ifs at hd
  · cases hd
    exact hsegment segment hseg
  · exact h.served hd hseg

lemma Sound.setStage (hcall : db.calls c = some call)
    (hlive : ∀ g, stage.live = some g → call.stage.live = some g)
    (hsegment : ∀ segment, stage.segment = some segment → segment.rows = call.rows) :
    (db.setStage c call stage).Sound := by
  refine h.frame h.retired h.toEvict (fun rel hl => ⟨hl, .inr (.inr ⟨rfl, id, rfl⟩)⟩) ?_
    (h.served_setStage hsegment)
  intro rel g rows hr
  obtain hold | ⟨same, live, rfl⟩ := hr.of_setStage
  · exact hold
  · exact .call hcall same (hlive g live)

lemma Sound.residency {residency : Residency}
    (hmarks : residency.marks = db.segments.residency.marks) :
    Db.Sound { db with segments := { db.segments with residency := residency } } :=
  h.frame h.retired h.toEvict
    (fun rel hl => ⟨hl, .inr (.inr ⟨congrFun hmarks rel, id, rfl⟩)⟩) (fun hr => hr.congr rfl rfl)
    h.served

lemma Sound.install {live : ℕ} (hcall : db.calls c = some call)
    (hlive : call.stage.live = some live) (hrows : segment.rows = call.rows) :
    Db.Sound { db with segments := db.segments.install call.rel segment live } := by
  refine h.frame h.retired h.toEvict (fun rel hl => ⟨hl, .inr (.inr ⟨rfl, id, rfl⟩)⟩) ?_ h.served
  intro rel g rows hr
  obtain ⟨known, same, live'⟩ | known := hr
  · exact .call known same live'
  · change update db.segments.segments call.rel _ rel = _ at known
    rw [update_apply] at known
    split_ifs at known with heq
    · cases known
      rw [hrows]
      exact .call hcall heq.symm hlive
    · exact .segment known

omit h

section

variable (h : db.Sound) (hcall : db.calls c = some call)
include h hcall

/-- One step of a call. -/
theorem Sound.stepCall {action : Action} (hstep : db.stepCall c call action = some db') :
    db'.Sound := by
  revert hstep
  fun_cases Db.stepCall db c call action <;> intro hstep <;> cases hstep
  case case1.refl live hstage segment hget =>
    refine h.setStage hcall (fun g hg => nomatch hg) fun seg hseg => ?_
    cases hseg
    -- The segment and the call are two records of one generation.
    exact h.agree (.segment (SegmentEngine.segments_of_get hget))
      (.call hcall rfl (by rw [hstage]; rfl))
  case case2.refl live hstage _ _ =>
    exact h.setStage hcall (fun g hg => by rw [hstage]; exact hg) fun seg hseg => nomatch hseg
  case case4.refl live hstage build residency hbuild _ =>
    have hmarks := Residency.shouldBuild_marks db.segments.residency call.rel live
    rw [hbuild] at hmarks
    refine (h.residency hmarks).setStage hcall (fun g hg => ?_) fun seg hseg => ?_
    · split_ifs at hg
      · rw [hstage]
        exact hg
      · exact nomatch hg
    · split_ifs at hseg
      · exact nomatch hseg
      · exact nomatch hseg
  case case7.refl live hstage segment hbuild _ =>
    have hrows := Segment.rows_build hbuild
    refine (h.install hcall (by rw [hstage]; rfl) hrows).setStage hcall (fun g hg => nomatch hg)
      fun seg hseg => ?_
    cases hseg
    exact hrows
  case case9.refl segment hstage _ _ =>
    refine Sound.setStage (h.residency rfl) hcall (fun g hg => nomatch hg) fun seg hseg => ?_
    cases hseg
    exact h.served hcall (by rw [hstage]; rfl)
  all_goals exact h.setStage hcall (fun g hg => nomatch hg) fun seg hseg => nomatch hseg

end

/-- A quiet witness records the committed rows at the current generation, as every record of that
generation does. -/
theorem Sound.witness {r : ℕ} {snapshot : Snapshot} (h : db.Sound)
    (hquiet : db.Quiet (.witness c r rel)) (hreader : db.readers r = some snapshot)
    (hrows : snapshot rel = some rows) : Db.Sound { db with
      calls := update db.calls c (some ⟨rel, rows, .witnessed (db.mark rel)⟩) } := by
  obtain ⟨hpending, hcurrent⟩ := hquiet
  have hcommitted : db.committed rel = some rows := (hcurrent snapshot hreader).symm.trans hrows
  have hlive : db.retired rel = false := by
    refine Bool.eq_false_iff.mpr fun hretired => ?_
    exact nomatch (h.retired rel hretired).symm.trans hcommitted
  have hnew : ∀ {rows' : List Tuple}, db.Record rel (db.mark rel) rows' → rows' = rows := fun hr =>
    some.inj (((h.current hr hlive).2 rfl).2.symm.trans hcommitted)
  change (db.setStage c ⟨rel, rows, .declined⟩ (.witnessed (db.mark rel))).Sound
  refine ⟨h.retired, h.toEvict, ?_, ?_, h.served_setStage fun segment hseg => nomatch hseg⟩
  · intro rel' g rows' hr hl
    obtain hold | ⟨rfl, hg, rfl⟩ := hr.of_setStage
    · exact h.current hold hl
    · exact ⟨(some.inj hg).ge, fun _ => ⟨hpending, hcommitted⟩⟩
  · intro rel' g rows₁ rows₂ h₁ h₂
    obtain hold₁ | ⟨hrel₁, hg₁, rfl⟩ := h₁.of_setStage
    · obtain hold₂ | ⟨rfl, hg₂, rfl⟩ := h₂.of_setStage
      · exact h.agree hold₁ hold₂
      · cases hg₂
        exact hnew hold₁
    · obtain hold₂ | ⟨-, -, rfl⟩ := h₂.of_setStage
      · obtain rfl := hrel₁
        cases hg₁
        exact (hnew hold₂).symm
      · rfl

/-! ## Runs -/

/-- **A quiet step keeps a sound state sound.** -/
theorem Sound.step {action : Action} (h : db.Sound) (hquiet : db.Quiet action)
    (hstep : db.step action = some db') : db'.Sound := by
  cases action with
  | begin w writes destroys =>
    simp only [Db.step] at hstep
    split_ifs at hstep
    cases hstep
    exact h.writers fun rel hp => hp.of_begin rfl rfl
  | bump w rel =>
    obtain ⟨writer, hw, hnext⟩ := bind_eq_some_iff.mp hstep
    exact h.bump hw hnext
  | commit w =>
    obtain ⟨writer, hw, hnext⟩ := bind_eq_some_iff.mp hstep
    exact h.commit hw hnext
  | abort w =>
    obtain ⟨writer, -, hnext⟩ := bind_eq_some_iff.mp hstep
    cases hnext
    exact h.writers fun rel hp => hp.of_erase rfl
  | evict rel =>
    simp only [Db.step] at hstep
    split_ifs at hstep with hmem
    cases hstep
    exact h.evict hmem
  | openRead r =>
    cases hstep
    exact h.frame h.retired h.toEvict (fun rel hl => ⟨hl, .inr (.inr ⟨rfl, id, rfl⟩)⟩)
      (fun hr => hr.congr rfl rfl) h.served
  | witness c r rel =>
    obtain ⟨snapshot, hreader, hnext⟩ := bind_eq_some_iff.mp hstep
    obtain ⟨rows, hrows, rfl⟩ := map_eq_some_iff.mp hnext
    exact h.witness hquiet hreader hrows
  | get c | shouldBuild c | install c | clearMiss c | scanFails c =>
    obtain ⟨call, hcall, hnext⟩ := bind_eq_some_iff.mp hstep
    exact h.stepCall hcall hnext

/-- A process that opens a store: generations at zero, no segment, no transaction. -/
def opened (committed : Snapshot) : Db where
  segments := ⟨⟨fun _ => 0, fun _ => none⟩, fun _ => none⟩
  committed := committed
  retired := fun _ => false
  toEvict := []
  writers := fun _ => none
  readers := fun _ => none
  calls := fun _ => none

lemma sound_opened (committed : Snapshot) : (opened committed).Sound where
  retired := fun _ h => nomatch h
  toEvict := fun _ h => nomatch h
  current := fun hr => by obtain ⟨known, _, _⟩ | known := hr <;> exact nomatch known
  agree := fun hr => by obtain ⟨known, _, _⟩ | known := hr <;> exact nomatch known
  served := fun h => nomatch h

/-- **Served segments are sound.**  In every run whose generations are witnessed with a current
snapshot and no writer between its bump and its commit, the segment a call is served or builds holds
exactly the rows of the relation in the caller's own snapshot. -/
theorem served_rows_of_quiet {committed : Snapshot} {actions : List Action} {db : Db}
    (run : StepRun Db.step Db.Quiet (opened committed) actions db) {c : ℕ} {call : Call}
    {segment : Segment} (hcall : db.calls c = some call) (hserved : call.stage = .served segment) :
    segment.rows = call.rows := by
  have h : db.Sound :=
    run.invariant (sound_opened committed) fun hsound hquiet hstep => hsound.step hquiet hstep
  exact h.served hcall (by rw [hserved]; rfl)

/-! ## A write and the readers around it -/

/-- A relation. -/
def stockRel : RelationId := ⟨2, by decide⟩

/-- The steps of one call of `segment_at` that misses and is declined by the gate. -/
def missDeclined (c r : ℕ) : List Action := [.witness c r stockRel, .get c, .shouldBuild c]

/-- The steps of one call that misses and builds. -/
def missBuilds (c r : ℕ) : List Action :=
  [.witness c r stockRel, .get c, .shouldBuild c, .install c, .clearMiss c]

/-- One row before the write and another after it. -/
def stockRows (n : Bool) : List Tuple := [[.bool n]]

/-- The segment of the row after the write. -/
def stockSegment : Segment := ⟨[.bool true], [1]⟩

/-- The store before the write. -/
def stock : Snapshot := fun rel => if rel = stockRel then some (stockRows false) else none

/-- A writer replaces the row. -/
def stockWriter : Action := .begin 0 [(stockRel, fun _ => stockRows true)] []

/-- The segment a call was served. -/
def answer (db : Db) (c : ℕ) : Option (List Tuple × List Tuple) :=
  (db.calls c).bind fun call => match call.stage with
    | .served segment => some (segment.rows, call.rows)
    | _ => none

lemma quiet_witness {r : ℕ} (hwriters : ∀ w, db.writers w = none)
    (hreader : db.readers r = some db.committed) : db.Quiet (.witness c r rel) := by
  constructor
  · rintro ⟨w, writer, hw, -⟩
    exact nomatch (hwriters w).symm.trans hw
  · intro snapshot hs
    rw [some.inj (hs.symm.trans hreader)]

/-- A writer commits; a reader that opens then builds a segment of the new rows at its second
miss. -/
theorem served_rows_of_quiet_commit : ∃ actions db call segment,
    StepRun Db.step Db.Quiet (opened stock) actions db ∧ db.calls 1 = some call ∧
      call.stage = .served segment ∧ call.rows = stockRows true ∧ segment.rows = call.rows := by
  have hopen := (@StepRun.nil _ _ Db.step Db.Quiet (opened stock)).extend
    [stockWriter, .bump 0 stockRel, .commit 0, .openRead 0] (by simp [Quiet, stockWriter]) rfl
  have hdecline := (hopen.snoc (a := .witness 0 0 stockRel) (quiet_witness
    (fun w => by simp [update_apply, opened]) rfl) rfl).extend [.get 0, .shouldBuild 0]
      (by simp [Quiet]) rfl
  have hbuild := (hdecline.snoc (a := .witness 1 0 stockRel) (quiet_witness
    (fun w => by simp [opened, setStage]) rfl) rfl).extend
      [.get 1, .shouldBuild 1, .install 1, .clearMiss 1]
      (by simp [Quiet]) rfl
  let call : Call := ⟨stockRel, stockRows true, .served stockSegment⟩
  exact ⟨_, _, call, stockSegment, hbuild, rfl, rfl, rfl,
    @served_rows_of_quiet _ _ _ hbuild 1 call stockSegment rfl rfl⟩

/-- Between the bump and the commit a reader of the old rows builds a segment at the new generation;
a reader that opens after the commit is served the old rows. -/
theorem served_stale_rows : (runSteps Db.step (opened stock)
      ([stockWriter, .bump 0 stockRel, .openRead 0] ++ missDeclined 0 0 ++ missBuilds 1 0 ++
        [.commit 0, .openRead 1, .witness 2 1 stockRel, .get 2])).bind (fun db => db.answer 2) =
      some (stockRows false, stockRows true) ∧ stockRows false ≠ stockRows true := by
  decide

end Db

end Kyzo
