import JustApi.Core.Migrations

/-! # At most once, and none skipped

A migration is known by its version on record, which is written after its `up_sql` and
by a statement of its own. As long as no call ends between the first `up_sql` of a
version and the records of all its files, the record says exactly which migrations
are applied. -/
namespace JustApi.Core.Migrations
open JustApi.Lib.Run JustApi.Core.Crud

variable {migrations : List Migration} {w w' : World} {db : Database} {event : Event}

/-! ## What has been executed -/

/-- The `up_sql` of the migration was executed and has not been rolled back since. -/
def isApplied (i : Nat) : List Executed → Bool
  | [] => false
  | .up j :: older => j = i || isApplied i older
  | .down j :: older => j ≠ i && isApplied i older

/-- Between two executions of one `up_sql` there is a rollback. -/
def AtMostOnce (history : List Executed) : Prop :=
  ∀ i newer between older, history = newer ++ .up i :: (between ++ .up i :: older) →
    .down i ∈ between

/-- No migration is applied twice, and when `run` has returned `Ok` each one is
applied. -/
structure Kept (migrations : List Migration) (w : World) : Prop where
  once : AtMostOnce w.db.history
  complete : ∀ appliedList, w.phase = .ended (.migrated appliedList) →
    ∀ i < migrations.length, isApplied i w.db.history = true

/-- The step does not leave a version half applied or half rolled back. -/
def Clean (migrations : List Migration) (w : World) : Event → Prop
  | .run | .rollbackOne => True
  | event =>
    match w.phase with
    | .applying todo _ =>
      event = .statement true ∨ ∀ i ∈ todo, versionOf migrations i ∉ w.db.recorded
    | .recording i _ _ => event = .statement true ∧ versionOf migrations i < 2 ^ 63
    | .reverting i =>
      event = .statement true →
        ∀ j < migrations.length, versionOf migrations j = versionOf migrations i → j = i
    | .removing _ => event = .statement true
    | _ => True

instance (migrations : List Migration) (w : World) (event : Event) :
    Decidable (Clean migrations w event) := by
  unfold Clean
  cases event <;> dsimp only <;> first | infer_instance | (split <;> infer_instance)

theorem isApplied_iff {i : Nat} {history : List Executed} :
    isApplied i history = true ↔
      ∃ newer older, history = newer ++ .up i :: older ∧ .down i ∉ newer := by
  induction history with
  | nil => simp [isApplied]
  | cons e history ih =>
    constructor
    · intro h
      have hmore : isApplied i history = true → e ≠ .down i →
          ∃ newer older, e :: history = newer ++ .up i :: older ∧ .down i ∉ newer := by
        intro h hne
        obtain ⟨newer, older, rfl, hnot⟩ := ih.mp h
        refine ⟨e :: newer, older, rfl, ?_⟩
        rw [List.mem_cons, not_or]
        exact ⟨hne.symm, hnot⟩
      cases e with
      | up j =>
        by_cases hj : j = i
        · exact ⟨[], history, by rw [hj]; rfl, List.not_mem_nil⟩
        · exact hmore (by simpa [isApplied, hj] using h) (by simp)
      | down j =>
        simp only [isApplied, Bool.and_eq_true, decide_eq_true_eq] at h
        exact hmore h.2 (by simpa using h.1)
    · rintro ⟨newer, older, he, hnot⟩
      cases newer with
      | nil =>
        cases he
        simp [isApplied]
      | cons d newer =>
        obtain ⟨rfl, rfl⟩ := List.cons.inj he
        rw [List.mem_cons, not_or] at hnot
        have hrest : isApplied i (newer ++ .up i :: older) = true := ih.mpr ⟨newer, older, rfl, hnot.2⟩
        cases e with
        | up j => simp [isApplied, hrest]
        | down j =>
          have hne : j ≠ i := fun he => hnot.1 (by rw [he])
          simp [isApplied, hrest, hne]

theorem atMostOnce_nil : AtMostOnce [] := by
  intro i newer between older h
  simp at h

theorem AtMostOnce.up {i : Nat} {history : List Executed} (h : AtMostOnce history)
    (hi : isApplied i history = false) : AtMostOnce (.up i :: history) := by
  intro j newer between older he
  cases newer with
  | cons e newer => exact h j newer between older (List.cons.inj he).2
  | nil =>
    obtain ⟨hij, rfl⟩ := List.cons.inj he
    cases hij
    by_contra hnot
    rw [isApplied_iff.mpr ⟨between, older, rfl, hnot⟩] at hi
    cases hi

theorem AtMostOnce.down {i : Nat} {history : List Executed} (h : AtMostOnce history) :
    AtMostOnce (.down i :: history) := by
  intro j newer between older he
  cases newer with
  | nil => cases (List.cons.inj he).1
  | cons e newer => exact h j newer between older (List.cons.inj he).2

/-! ## The record -/

theorem versionOf_eq {i : Nat} {m : Migration} (h : migrations[i]? = some m) :
    versionOf migrations i = m.version := by
  rw [versionOf, h]
  rfl

theorem asU64_of_range {v : Int} (h : 0 ≤ v ∧ v < 2 ^ 63) : (asU64 v : Int) = v := by
  unfold asU64
  omega

theorem storedVersion_range {kind : DbKind} {version : Nat} {v : Int}
    (h : storedVersion kind version = some v) : 0 ≤ v ∧ v < 2 ^ 63 := by
  unfold storedVersion at h
  split at h
  · cases h
    omega
  · cases kind <;> simp at h
    subst h
    omega

/-- The rows fit in the column. -/
def Ranged (db : Database) : Prop := ∀ rows, db.tracking = some rows →
  ∀ r ∈ rows, 0 ≤ r.version ∧ r.version < 2 ^ 63

theorem recorded_ensure (db : Database) : db.ensureTrackingTable.recorded = db.recorded := by
  cases h : db.tracking <;> simp [Database.ensureTrackingTable, Database.recorded,
    Database.appliedVersions, h]

theorem recorded_of_applied {applied : List Nat} (h : db.appliedVersions = some applied) :
    db.recorded = applied := by
  rw [Database.recorded, h]
  rfl

theorem mem_recorded {rows : List Row} (h : db.tracking = some rows) (v : Nat) :
    v ∈ db.recorded ↔ ∃ r ∈ rows, asU64 r.version = v := by
  simp [Database.recorded, Database.appliedVersions, h]

/-- Recording a migration adds its version, and nothing else. -/
theorem recordMigration_ok (m : Migration) (hm : m.version < 2 ^ 63) (ht : db.tracking.isSome) :
    ∃ db', db.recordMigration m = some db' ∧ db'.history = db.history ∧ db'.tracking.isSome ∧
      (Ranged db → Ranged db') ∧ ∀ v, v ∈ db'.recorded ↔ v ∈ db.recorded ∨ v = m.version := by
  obtain ⟨rows, hrows⟩ := Option.isSome_iff_exists.mp ht
  have hstored : storedVersion db.kind m.version = some (m.version : Int) := by
    unfold storedVersion
    rw [if_pos hm]
  have hback : asU64 (m.version : Int) = m.version := by
    have := asU64_of_range (v := m.version) ⟨by omega, by omega⟩
    omega
  simp only [Database.recordMigration, hrows, hstored]
  split
  · rename_i hany
    obtain ⟨r, hr, hv⟩ := List.any_eq_true.mp hany
    have hthere : m.version ∈ db.recorded :=
      (mem_recorded hrows _).mpr ⟨r, hr, by rw [of_decide_eq_true hv, hback]⟩
    refine ⟨db, rfl, rfl, ht, id, fun v => ⟨.inl, ?_⟩⟩
    rintro (hin | rfl)
    · exact hin
    · exact hthere
  · refine ⟨_, rfl, rfl, rfl, fun hrange rows' hrows' r hr => ?_, fun v => ?_⟩
    · cases hrows'
      rcases List.mem_append.mp hr with hr | hr
      · exact hrange rows hrows r hr
      · rw [List.mem_singleton.mp hr]
        exact storedVersion_range hstored
    · have hnew : ({ db with tracking := some (rows ++ [⟨m.version, m.name⟩]) } : Database).tracking =
          some (rows ++ [⟨m.version, m.name⟩]) := rfl
      rw [mem_recorded hnew, mem_recorded hrows]
      simp only [List.mem_append, List.mem_singleton, or_and_right, exists_or, exists_eq_left, hback,
        eq_comm (a := v)]

/-- Removing a version takes it off the record, and nothing else. -/
theorem removeMigration_ok (version : Nat) (ht : db.tracking.isSome) (hr : Ranged db) :
    ∃ db', db.removeMigration version = some db' ∧ db'.history = db.history ∧ Ranged db' ∧
      ∀ v, v ∈ db'.recorded ↔ v ∈ db.recorded ∧ v ≠ version := by
  obtain ⟨rows, hrows⟩ := Option.isSome_iff_exists.mp ht
  refine ⟨{ db with tracking := some (rows.filter fun r => r.version ≠ version) },
    by simp [Database.removeMigration, hrows], rfl, fun rows' hrows' r hmem => ?_, fun v => ?_⟩
  · cases hrows'
    exact hr rows hrows r (List.mem_filter.mp hmem).1
  · have hnew : ({ db with tracking := some (rows.filter fun r => r.version ≠ (version : Int)) } :
        Database).tracking = some (rows.filter fun r => r.version ≠ (version : Int)) := rfl
    rw [mem_recorded hnew, mem_recorded hrows]
    constructor
    · rintro ⟨r, hmem, rfl⟩
      obtain ⟨hmem, hne⟩ := List.mem_filter.mp hmem
      refine ⟨⟨r, hmem, rfl⟩, fun he => of_decide_eq_true hne ?_⟩
      rw [← asU64_of_range (hr rows hrows r hmem), he]
    · rintro ⟨⟨r, hmem, rfl⟩, hne⟩
      refine ⟨r, List.mem_filter.mpr ⟨hmem, decide_eq_true fun he => hne ?_⟩, rfl⟩
      have := asU64_of_range (hr rows hrows r hmem)
      omega

theorem mem_pending {applied : List Nat} {i : Nat} :
    i ∈ pending migrations applied ↔ i < migrations.length ∧ versionOf migrations i ∉ applied := by
  simp [pending]

theorem latest_ok {applied : List Nat} {i : Nat} (h : latest migrations applied = .ok i) :
    i < migrations.length ∧ versionOf migrations i ∈ applied := by
  unfold latest at h
  split at h
  · cases h
  · rename_i version hmax
    split at h
    · cases h
    · rename_i k hfind
      cases h
      obtain ⟨hlt, heq, -⟩ := List.findIdx?_eq_some_iff_getElem.mp hfind
      refine ⟨hlt, ?_⟩
      rw [versionOf_eq (List.getElem?_eq_getElem hlt), of_decide_eq_true heq]
      exact List.max?_mem hmax

/-! ## Where a call is -/

/-- The record says which migrations are applied. -/
def Settled (migrations : List Migration) (db : Database) : Prop :=
  ∀ i < migrations.length, isApplied i db.history = true ↔ versionOf migrations i ∈ db.recorded

/-- A `run` that has applied everything but `todo`, and recorded all of that except
for `unrecorded`. -/
structure Midway (migrations : List Migration) (db : Database) (todo : List Nat)
    (unrecorded : Option Nat) : Prop where
  tracked : db.tracking.isSome
  nodup : todo.Nodup
  below : ∀ i ∈ todo, i < migrations.length
  applied_iff : ∀ i < migrations.length, isApplied i db.history = true ↔ i ∉ todo
  recorded : ∀ i < migrations.length, i ∉ todo → some i ≠ unrecorded →
    versionOf migrations i ∈ db.recorded

/-- What holds at a statement. -/
def Placed (migrations : List Migration) (db : Database) : Phase → Prop
  | .ended (.migrated _) =>
    Settled migrations db ∧ ∀ i < migrations.length, isApplied i db.history = true
  | .ended _ | .creating | .selecting | .choosing => Settled migrations db
  | .applying todo _ => Midway migrations db todo none
  | .recording i todo _ => i < migrations.length ∧ i ∉ todo ∧ Midway migrations db todo (some i)
  | .reverting i =>
    Settled migrations db ∧ i < migrations.length ∧ versionOf migrations i ∈ db.recorded
  | .removing i =>
    (db.tracking.isSome ∧ ∀ j < migrations.length,
      versionOf migrations j = versionOf migrations i → j = i) ∧
    ∀ j < migrations.length,
      isApplied j db.history = true ↔ versionOf migrations j ∈ db.recorded ∧ j ≠ i

structure Sound (migrations : List Migration) (w : World) : Prop where
  once : AtMostOnce w.db.history
  ranged : Ranged w.db
  placed : Placed migrations w.db w.phase

theorem sound_new (kind : DbKind) : Sound migrations (World.new kind) := by
  refine ⟨atMostOnce_nil, ?_, ?_⟩
  · intro rows h
    cases h
  · intro i _
    simp [World.new, isApplied, Database.recorded, Database.appliedVersions]

theorem Sound.kept (h : Sound migrations w) : Kept migrations w :=
  ⟨h.once, fun _ hp => by
    have := h.placed
    rw [hp] at this
    exact this.2⟩

/-- A clean end of a call leaves the record right. -/
theorem Sound.settled (h : Sound migrations w) (he : event = .statement false ∨ event = .stop)
    (hc : Clean migrations w event) : Settled migrations w.db := by
  have hp := h.placed
  have hno : event ≠ .statement true := by rcases he with rfl | rfl <;> simp
  have hclean : match w.phase with
      | .applying todo _ => ∀ i ∈ todo, versionOf migrations i ∉ w.db.recorded
      | .recording _ _ _ | .removing _ => False
      | _ => True := by
    rcases he with rfl | rfl <;> unfold Clean at hc <;> dsimp only at hc ⊢ <;> split at hc <;>
      simp_all
  cases hphase : w.phase with
  | ended o =>
    rw [hphase] at hp
    cases o with
    | migrated l => exact hp.1
    | stopped | rolledBack | failed e => exact hp
  | creating | selecting | choosing =>
    rw [hphase] at hp
    exact hp
  | applying todo l =>
    rw [hphase] at hp hclean
    intro i hi
    rw [hp.applied_iff i hi]
    exact ⟨fun hnot => hp.recorded i hi hnot (by simp), fun hin hmem => hclean i hmem hin⟩
  | reverting i =>
    rw [hphase] at hp
    exact hp.1
  | recording i todo l | removing i =>
    rw [hphase] at hclean
    exact hclean.elim

/-! ## Steps -/

theorem Midway.placed {todo l : List Nat} (h : Midway migrations db todo none) :
    Placed migrations db (applyNext todo l) := by
  unfold applyNext
  split
  · rename_i hnil
    rw [hnil] at h
    have hall : ∀ i < migrations.length, isApplied i db.history = true :=
      fun i hi => (h.applied_iff i hi).mpr List.not_mem_nil
    exact ⟨fun i hi => ⟨fun _ => h.recorded i hi List.not_mem_nil (by simp), fun _ => hall i hi⟩,
      hall⟩
  · exact h

/-- The applied versions are what is on record, so what is pending is not applied. -/
theorem Settled.midway {applied : List Nat} (h : Settled migrations db)
    (hs : db.appliedVersions = some applied) :
    Midway migrations db (pending migrations applied) none := by
  have hrec := recorded_of_applied hs
  refine ⟨by simpa [Database.appliedVersions] using Option.isSome_iff_exists.mpr ⟨_, hs⟩,
    List.nodup_range.filter _, fun i hi => (mem_pending.mp hi).1, fun i hi => ?_,
    fun i hi hnot _ => ?_⟩
  · rw [h i hi, hrec, mem_pending]
    simp [hi]
  · by_contra hne
    exact hnot (mem_pending.mpr ⟨hi, hrec ▸ hne⟩)

theorem isApplied_up {i j : Nat} {history : List Executed} :
    isApplied j (.up i :: history) = true ↔ i = j ∨ isApplied j history = true := by
  simp [isApplied]

theorem isApplied_down {i j : Nat} {history : List Executed} :
    isApplied j (.down i :: history) = true ↔ i ≠ j ∧ isApplied j history = true := by
  simp [isApplied]

/-- Executing the next migration of the loop. -/
theorem Midway.apply {i : Nat} {todo : List Nat} (h : Midway migrations db (i :: todo) none) :
    isApplied i db.history = false ∧
      i < migrations.length ∧ i ∉ todo ∧ Midway migrations (db.execute (.up i)) todo (some i) := by
  have hi := h.below i List.mem_cons_self
  obtain ⟨hnot, hnodup⟩ := List.nodup_cons.mp h.nodup
  refine ⟨?_, hi, hnot, h.tracked, hnodup, fun j hj => h.below j (List.mem_cons_of_mem _ hj),
    fun j hj => ?_, fun j hj hout hne => ?_⟩
  · by_contra hne
    exact (h.applied_iff i hi).mp (by simpa using hne) List.mem_cons_self
  · rw [Database.execute, isApplied_up, h.applied_iff j hj, List.mem_cons, not_or]
    constructor
    · rintro (rfl | ⟨-, hout⟩)
      · exact hnot
      · exact hout
    · intro hout
      by_cases hij : i = j
      · exact .inl hij
      · exact .inr ⟨fun he => hij he.symm, hout⟩
  · refine h.recorded j hj ?_ (by simp)
    rw [List.mem_cons, not_or]
    exact ⟨fun he => hne (by rw [he]), hout⟩

/-- Recording the migration that was executed. -/
theorem Midway.record {i : Nat} {todo : List Nat} {db' : Database}
    (h : Midway migrations db todo (some i)) (hh : db'.history = db.history)
    (ht : db'.tracking.isSome)
    (hr : ∀ v, v ∈ db'.recorded ↔ v ∈ db.recorded ∨ v = versionOf migrations i) :
    Midway migrations db' todo none := by
  refine ⟨ht, h.nodup, h.below, fun j hj => ?_, fun j hj hout _ => (hr _).mpr ?_⟩
  · rw [hh]
    exact h.applied_iff j hj
  · by_cases hij : j = i
    · exact .inr (by rw [hij])
    · exact .inl (h.recorded j hj hout fun he => hij (Option.some.inj he))

/-- A failing statement changes nothing and ends the call. -/
theorem fail_ok (h : fail migrations w = .ok w') :
    w'.db = w.db ∧ ∃ e, w'.phase = .ended (.failed e) := by
  unfold fail at h
  split at h
  · cases h
  · cases h
    exact ⟨rfl, _, rfl⟩

theorem Sound.halt {o : Outcome} (h : Sound migrations w) (hs : Settled migrations w.db)
    (ho : ∀ l, o ≠ .migrated l) : Sound migrations ⟨w.db, .ended o⟩ := by
  refine ⟨h.once, h.ranged, ?_⟩
  cases o with
  | migrated l => exact absurd rfl (ho l)
  | stopped | rolledBack | failed e => exact hs

theorem Sound.failed (h : Sound migrations w) (hs : Settled migrations w.db)
    (hf : fail migrations w = .ok w') : Sound migrations w' := by
  obtain ⟨hdb, e, hp⟩ := fail_ok hf
  have := h.halt (o := .failed e) hs (by simp)
  rwa [← hdb, ← hp] at this

/-- A new tracking table is empty. -/
theorem Ranged.ensure (h : Ranged db) : Ranged db.ensureTrackingTable := by
  intro rows hrows r hr
  cases htrack : db.tracking with
  | none =>
    have hnil : rows = [] := by
      simpa [Database.ensureTrackingTable, htrack, eq_comm] using hrows
    rw [hnil] at hr
    cases hr
  | some rows' =>
    have hsame : rows' = rows := by
      simpa [Database.ensureTrackingTable, htrack] using hrows
    exact h rows' htrack r (hsame ▸ hr)

theorem tracked_of_recorded {v : Nat} (h : v ∈ db.recorded) : db.tracking.isSome := by
  cases htrack : db.tracking with
  | none => simp [Database.recorded, Database.appliedVersions, htrack] at h
  | some rows => rfl

/-- What was executed goes on record. -/
theorem Midway.recordStep {i : Nat} {todo l : List Nat} (hi : i < migrations.length)
    (hmid : Midway migrations w.db todo (some i)) (hrange : Ranged w.db)
    (hfits : versionOf migrations i < 2 ^ 63)
    (hx : perform migrations w.db (.recording i todo l) = some w') :
    w'.db.history = w.db.history ∧ Ranged w'.db ∧ Placed migrations w'.db w'.phase := by
  obtain ⟨db', hdb, rfl⟩ := Option.map_eq_some_iff.mp hx
  have hget := List.getElem?_eq_getElem hi
  rw [hget, Option.bind_some] at hdb
  have hversion := versionOf_eq hget
  obtain ⟨db'', hdb', hh, ht, hr, hrec⟩ :=
    recordMigration_ok migrations[i] (hversion ▸ hfits) hmid.tracked
  rw [hdb] at hdb'
  cases hdb'
  exact ⟨hh, hr hrange, (hmid.record hh ht fun v => hversion ▸ hrec v).placed⟩

/-- What was rolled back is taken off the record. -/
theorem Placed.removeStep {i : Nat} (hp : Placed migrations w.db (.removing i))
    (hrange : Ranged w.db) (hx : perform migrations w.db (.removing i) = some w') :
    w'.db.history = w.db.history ∧ Ranged w'.db ∧ Placed migrations w'.db w'.phase := by
  obtain ⟨⟨htrack, hunique⟩, hiff⟩ := hp
  obtain ⟨db', hdb, rfl⟩ := Option.map_eq_some_iff.mp hx
  obtain ⟨db'', hdb', hh, hr, hrec⟩ := removeMigration_ok _ htrack hrange
  rw [hdb] at hdb'
  cases hdb'
  refine ⟨hh, hr, fun j hj => ?_⟩
  rw [hh, hiff j hj, hrec]
  exact and_congr_right fun _ => not_congr ⟨fun he => by rw [he], hunique j hj⟩

/-- A statement that succeeds. -/
theorem Sound.performed (h : Sound migrations w) (hc : Clean migrations w (.statement true))
    (hx : perform migrations w.db w.phase = some w') : Sound migrations w' := by
  obtain ⟨hone, hrange, hp⟩ := h
  unfold Clean at hc
  cases hphase : w.phase with
  | ended o =>
    rw [hphase] at hx
    cases hx
  | creating =>
    rw [hphase] at hx hp
    cases hx
    refine ⟨hone, hrange.ensure, fun i hi => ?_⟩
    rw [recorded_ensure]
    exact hp i hi
  | selecting =>
    rw [hphase] at hx hp
    obtain ⟨applied, hs, rfl⟩ := Option.map_eq_some_iff.mp hx
    exact ⟨hone, hrange, (hp.midway hs).placed⟩
  | applying todo l =>
    rw [hphase] at hx hp
    cases todo with
    | nil => cases hx
    | cons i todo =>
      cases hx
      obtain ⟨hnew, hi, hnot, hmid⟩ := hp.apply
      exact ⟨hone.up hnew, hrange, hi, hnot, hmid⟩
  | recording i todo l =>
    rw [hphase] at hx hp hc
    obtain ⟨hh, hr, hplaced⟩ := hp.2.2.recordStep hp.1 hrange hc.2 hx
    exact ⟨hh.symm ▸ hone, hr, hplaced⟩
  | choosing =>
    rw [hphase] at hx hp
    obtain ⟨applied, hs, rfl⟩ := Option.map_eq_some_iff.mp hx
    split
    · exact ⟨hone, hrange, hp⟩
    · rename_i i hlatest
      obtain ⟨hi, hmem⟩ := latest_ok hlatest
      split
      · exact ⟨hone, hrange, hp, hi, recorded_of_applied hs ▸ hmem⟩
      · exact ⟨hone, hrange, hp⟩
  | reverting i =>
    rw [hphase] at hx hp hc
    cases hx
    obtain ⟨hset, hi, hmem⟩ := hp
    refine ⟨hone.down, hrange, ⟨tracked_of_recorded hmem, hc rfl⟩, fun j hj => ?_⟩
    rw [Database.execute, isApplied_down, hset j hj, and_comm, ne_comm]
    rfl
  | removing i =>
    rw [hphase] at hx hp
    obtain ⟨hh, hr, hplaced⟩ := hp.removeStep hrange hx
    exact ⟨hh.symm ▸ hone, hr, hplaced⟩

/-- A statement that cannot succeed although the step is clean ends a call that has
nothing under way. -/
theorem Sound.settled_of_none (h : Sound migrations w) (hc : Clean migrations w (.statement true))
    (hx : perform migrations w.db w.phase = none) (hf : fail migrations w = .ok w') :
    Settled migrations w.db := by
  have hp := h.placed
  unfold Clean at hc
  cases hphase : w.phase with
  | ended o =>
    rw [fail, hphase] at hf
    cases hf
  | creating | selecting | choosing =>
    rw [hphase] at hp
    exact hp
  | applying todo l =>
    cases todo with
    | nil =>
      rw [fail, hphase] at hf
      cases hf
    | cons i todo =>
      rw [hphase] at hx
      cases hx
  | recording i todo l =>
    rw [hphase] at hx hp hc
    obtain ⟨hi, -, hmid⟩ := hp
    have hget := List.getElem?_eq_getElem hi
    obtain ⟨db', hdb, -⟩ :=
      recordMigration_ok migrations[i] (versionOf_eq hget ▸ hc.2) hmid.tracked
    simp [perform, hget, hdb] at hx
  | reverting i =>
    rw [hphase] at hx
    cases hx
  | removing i =>
    rw [hphase] at hx hp
    obtain ⟨db', hdb, -⟩ :=
      removeMigration_ok (versionOf migrations i) hp.1.1 h.ranged
    simp [perform, hdb] at hx

theorem Sound.step (h : Sound migrations w) (hs : Step migrations w event w')
    (hc : Clean migrations w event) : Sound migrations w' := by
  unfold Step exec at hs
  cases event with
  | run | rollbackOne =>
    dsimp only at hs
    split at hs
    · rename_i o hphase
      cases hs
      have hp := h.placed
      rw [hphase] at hp
      refine ⟨h.once, h.ranged, ?_⟩
      cases o with
      | migrated l => exact hp.1
      | stopped | rolledBack | failed e => exact hp
    · cases hs
  | statement succeeds =>
    cases succeeds with
    | true =>
      dsimp only at hs
      split at hs
      · rename_i hx
        cases hs
        exact h.performed hc hx
      · rename_i hx
        exact h.failed (h.settled_of_none hc hx hs) hs
    | false => exact h.failed (h.settled (.inl rfl) hc) hs
  | stop =>
    cases hs
    exact h.halt (h.settled (.inr rfl) hc) (by simp)

/-- **Each migration once.** In every run of calls whose steps are clean no migration
is executed twice without a rollback in between, and after a `run` that returned `Ok`
all of them are applied. -/
theorem migrations_apply_once (dir : List DirEntry) (migrations : List Migration)
    (_ : discover (some dir) = .ok migrations) (kind : DbKind) (tr : List (Event × World))
    (hrun : Along (Step migrations) (World.new kind) tr)
    (hclean : Along (fun w event _ => Clean migrations w event) (World.new kind) tr) :
    ∀ w ∈ visited (World.new kind) tr, Kept migrations w := by
  have hsound := Along.invariant (I := Sound migrations)
    (fun _ _ _ hi hq => hi.step hq.1 hq.2) (sound_new kind) (hrun.and hclean)
  exact fun w hw => (hsound w hw).kept

/-- Two files, the second of which fails at first. -/
def twoFiles : List DirEntry :=
  [⟨"2_add_email.sql", .ok "ALTER"⟩, ⟨"1_users.sql", .ok "CREATE\n-- DOWN\nDROP"⟩]

def twoMigrations : List Migration :=
  [⟨1, "users", "CREATE", some "DROP"⟩, ⟨2, "add_email", "ALTER", none⟩]

def secondAtSecondTry : List Event :=
  [.run, .statement true, .statement true, .statement true, .statement true, .statement false,
    .run, .statement true, .statement true, .statement true, .statement true]

theorem migrations_apply_once_second_try :
    let w := final (exec twoMigrations) (World.new .sqlite) secondAtSecondTry
    Kept twoMigrations w ∧ w.phase = .ended (.migrated [1]) := by
  intro w
  refine ⟨migrations_apply_once twoFiles twoMigrations (by decide +kernel) .sqlite _
    (along_replay _ _ secondAtSecondTry) (by decide +kernel) w (final_mem_visited _ _ _),
    by decide +kernel⟩

/-- The `up_sql` succeeds, and then the record of it fails. -/
def recordFails : List Event :=
  [.run, .statement true, .statement true, .statement true, .statement false,
    .run, .statement true, .statement true, .statement true]

theorem failed_record_applies_twice :
    ¬ ∀ tr, Along (Step twoMigrations) (World.new .sqlite) tr →
      ∀ w ∈ visited (World.new .sqlite) tr, Kept twoMigrations w := by
  intro h
  have hkept := h _ (along_replay (exec twoMigrations) (World.new .sqlite) recordFails) _
    (final_mem_visited _ _ _)
  have hhistory : (final (exec twoMigrations) (World.new .sqlite) recordFails).db.history =
      [.up 0, .up 0] := by decide +kernel
  have hbetween := hkept.once 0 [] [] [] hhistory
  cases hbetween

end JustApi.Core.Migrations
