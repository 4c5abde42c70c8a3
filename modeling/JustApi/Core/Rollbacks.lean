import JustApi.Core.MigrationRuns

/-! # Rolling back

`Migrator::run` and `Migrator::rollback_one` as whole calls, each with the files that are
there when it is made. A file may be added, or be gone, from one call to the next, so
what was executed is told by the migrations themselves. -/
namespace JustApi.Core.Migrations
open JustApi.Lib.Run JustApi.Core.Crud

/-- A migration's statement that succeeded. -/
inductive Performed where
  | up (m : Migration)
  | down (m : Migration)
  deriving DecidableEq, Repr

structure Deployment where
  db : Database
  /-- The latest first. -/
  log : List Performed
  deriving DecidableEq, Repr

def Deployment.new (kind : DbKind) : Deployment := ⟨⟨kind, none, []⟩, []⟩

section Calls

variable (accepts : String → Bool)

/-- The loop of `run`; the database may refuse a migration's SQL. -/
def applyPending (applied : List Nat) :
    List Migration → List Migration → Deployment → Deployment × Except CallError (List Migration)
  | [], appliedList, d => (d, .ok appliedList)
  | m :: rest, appliedList, d =>
    if m.version ∈ applied then applyPending applied rest appliedList d
    else if ¬ accepts m.upSql then (d, .error (.migration m.version))
    else
      match d.db.recordMigration m with
      | none => (⟨d.db, .up m :: d.log⟩, .error .recordMigration)
      | some db => applyPending applied rest (appliedList ++ [m]) ⟨db, .up m :: d.log⟩

def runCall (migrations : List Migration) (d : Deployment) :
    Deployment × Except CallError (List Migration) :=
  let db := d.db.ensureTrackingTable
  match db.appliedVersions with
  | none => (⟨db, d.log⟩, .error .queryApplied)
  | some applied => applyPending accepts applied migrations [] ⟨db, d.log⟩

def rollbackOne (migrations : List Migration) (d : Deployment) :
    Deployment × Except CallError Unit :=
  match d.db.appliedVersions with
  | none => (d, .error .queryApplied)
  | some applied =>
    match applied.max? with
    | none => (d, .error .nothingToRollBack)
    | some maxVersion =>
      match migrations.find? fun m => m.version = maxVersion with
      | none => (d, .error (.notInFiles maxVersion))
      | some m =>
        match m.downSql with
        | none => (d, .ok ())
        | some downSql =>
          if ¬ accepts downSql then (d, .error (.rollback m.version))
          else
            match d.db.removeMigration m.version with
            | none => (⟨d.db, .down m :: d.log⟩, .error .deleteMigration)
            | some db => (⟨db, .down m :: d.log⟩, .ok ())

end Calls

/-- A call, its files, and what SQL the database accepts during it. -/
inductive Call where
  | run (migrations : List Migration) (accepts : String → Bool)
  | rollbackOne (migrations : List Migration) (accepts : String → Bool)

/-- A `run` that succeeds, or a `rollback_one`. -/
def CallStep (d : Deployment) (call : Call) (d' : Deployment) : Prop :=
  match call with
  | .run migrations accepts => ∃ appliedList, runCall accepts migrations d = (d', .ok appliedList)
  | .rollbackOne migrations accepts => (rollbackOne accepts migrations d).1 = d'

/-! ## The latest migration -/

/-- One migration, whose file may have been edited. -/
def SameMigration (m m' : Migration) : Prop := m.version = m'.version ∧ m.name = m'.name

instance (m m' : Migration) : Decidable (SameMigration m m') := inferInstanceAs (Decidable (_ ∧ _))

/-- The migrations that were applied and not rolled back since, the latest first. -/
def stillApplied : List Performed → List Migration
  | [] => []
  | .up m :: older => m :: stillApplied older
  | .down m :: older => (stillApplied older).eraseP fun m' => SameMigration m m'

/-- The migration applied last was rolled back, and its record is gone. -/
structure UndoesLatest (migrations : List Migration) (d d' : Deployment) : Prop where
  executed : ∃ last older m, stillApplied d.log = last :: older ∧ m ∈ migrations ∧
    SameMigration m last ∧ m.downSql.isSome ∧ d'.log = .down m :: d.log
  unrecorded : ∃ last ∈ (stillApplied d.log).head?, ∃ before r after,
    d.db.tracking = some (before ++ r :: after) ∧ r.version = last.version ∧
      d'.db.tracking = some (before ++ after)

/-- There is a file with a down section for the migration applied last. -/
def CanUndo (migrations : List Migration) (d : Deployment) : Prop :=
  ∃ last ∈ (stillApplied d.log).head?, ∃ m ∈ migrations, SameMigration m last ∧ m.downSql.isSome

/-- The call undoes the migration applied last, or it returns `Err` and changes nothing. -/
def RollsBackLatest (d : Deployment) (call : Call) (_ : Deployment) : Prop :=
  match call with
  | .run _ _ => True
  | .rollbackOne migrations accepts =>
    let (d', result) := rollbackOne accepts migrations d
    (result.isOk → UndoesLatest migrations d d') ∧
      (¬ CanUndo migrations d → ¬ result.isOk ∧ d' = d)

/-- The file of the largest recorded version, if there is one, has a down section and is
the migration applied last, or the database does not accept that section. -/
def LatestIsLargest (d : Deployment) (call : Call) (_ : Deployment) : Prop :=
  match call with
  | .run _ _ => True
  | .rollbackOne migrations accepts =>
    ∀ version ∈ d.db.recorded.max?, ∀ m ∈ migrations.find? fun m => m.version = version,
      ∃ downSql ∈ m.downSql, accepts downSql →
        ∃ last ∈ (stillApplied d.log).head?, SameMigration m last

/-! ## The record -/

/-- Its versions fit in the column, and there are no two rows with one version. -/
structure Keyed (db : Database) : Prop where
  ranged : Ranged db
  nodup : ∀ rows, db.tracking = some rows → (rows.map Row.version).Nodup

section Record

variable {db db' : Database} {m : Migration}

theorem keyed_new (kind : DbKind) : Keyed (Deployment.new kind).db := by
  constructor
  · intro rows h
    cases h
  · intro rows h
    cases h

theorem Keyed.ensure (h : Keyed db) : Keyed db.ensureTrackingTable := by
  cases hrows : db.tracking with
  | none =>
    have hnew : db.ensureTrackingTable.tracking = some [] := by
      simp [Database.ensureTrackingTable, hrows]
    constructor
    · intro rows he r hr
      cases hnew.symm.trans he
      cases hr
    · intro rows he
      cases hnew.symm.trans he
      exact List.nodup_nil
  | some rows =>
    have hnew : db.ensureTrackingTable.tracking = some rows := by
      simp [Database.ensureTrackingTable, hrows]
    constructor
    · intro rows' he
      cases hnew.symm.trans he
      exact h.ranged rows hrows
    · intro rows' he
      cases hnew.symm.trans he
      exact h.nodup rows hrows

theorem Keyed.record (h : Keyed db) (hr : db.recordMigration m = some db') : Keyed db' := by
  unfold Database.recordMigration at hr
  split at hr
  · rename_i rows version hrows hversion
    split at hr
    · cases hr
      exact h
    · rename_i hnew
      cases hr
      constructor
      · intro rows' he r hmem
        cases he
        rcases List.mem_append.mp hmem with hmem | hmem
        · exact h.ranged rows hrows r hmem
        · rw [List.mem_singleton.mp hmem]
          exact storedVersion_range hversion
      · intro rows' he
        cases he
        rw [List.map_append, List.map_singleton, List.nodup_append]
        refine ⟨h.nodup rows hrows, List.nodup_singleton _, ?_⟩
        intro v hv v' hv' heq
        rw [List.mem_singleton.mp hv'] at heq
        obtain ⟨r, hmem, hrv⟩ := List.mem_map.mp hv
        exact hnew (List.any_eq_true.mpr ⟨r, hmem, decide_eq_true (hrv.trans heq)⟩)
  · cases hr

/-- A recorded version has one row, and removing it removes that row. -/
theorem Keyed.remove (h : Keyed db) {version : Nat} (hv : version ∈ db.recorded) :
    ∃ before r after, db.tracking = some (before ++ r :: after) ∧ r.version = version ∧
      db.removeMigration version = some { db with tracking := some (before ++ after) } := by
  have hsome : db.tracking.isSome := by
    cases hrows : db.tracking with
    | none =>
      rw [Database.recorded, Database.appliedVersions, hrows] at hv
      cases hv
    | some rows => rfl
  obtain ⟨rows, hrows⟩ := Option.isSome_iff_exists.mp hsome
  obtain ⟨r, hmem, hr⟩ := (mem_recorded hrows version).mp hv
  have hversion : r.version = version := by
    rw [← hr, asU64_of_range (h.ranged rows hrows r hmem)]
  obtain ⟨before, after, rfl⟩ := List.append_of_mem hmem
  have hnodup := h.nodup _ hrows
  rw [List.map_append, List.map_cons, List.nodup_append, List.nodup_cons] at hnodup
  refine ⟨before, r, after, hrows, hversion, ?_⟩
  have hbefore : ∀ r' ∈ before, r'.version ≠ version := by
    intro r' hr' he
    exact hnodup.2.2 _ (List.mem_map_of_mem hr') _ List.mem_cons_self (he.trans hversion.symm)
  have hafter : ∀ r' ∈ after, r'.version ≠ version := by
    intro r' hr' he
    exact hnodup.2.1.1 (List.mem_map.mpr ⟨r', hr', he.trans hversion.symm⟩)
  have hfilter : (before ++ r :: after).filter (fun r => r.version ≠ (version : Int)) =
      before ++ after := by
    rw [List.filter_append, List.filter_cons_of_neg (by simp [hversion]),
      List.filter_eq_self.mpr (by simpa using hbefore),
      List.filter_eq_self.mpr (by simpa using hafter)]
  rw [Database.removeMigration, hrows, Option.map_some, hfilter]

end Record

/-! ## Runs of calls -/

section Runs

variable {accepts : String → Bool} {migrations : List Migration} {d d' : Deployment}

theorem applyPending_keyed {applied : List Nat} {todo appliedList list : List Migration}
    (h : Keyed d.db) (hrun : applyPending accepts applied todo appliedList d = (d', .ok list)) :
    Keyed d'.db := by
  induction todo generalizing appliedList d with
  | nil =>
    cases hrun
    exact h
  | cons m rest ih =>
    unfold applyPending at hrun
    split at hrun
    · exact ih h hrun
    · split at hrun
      · cases hrun
      · split at hrun
        · cases hrun
        · rename_i db hrecord
          exact ih (h.record hrecord) hrun

theorem runCall_keyed {list : List Migration} (h : Keyed d.db)
    (hrun : runCall accepts migrations d = (d', .ok list)) : Keyed d'.db := by
  unfold runCall at hrun
  dsimp only at hrun
  split at hrun
  · cases hrun
  · exact applyPending_keyed h.ensure hrun

/-- A rollback that cannot change anything, one without a down section, and one with it. -/
theorem rollbackOne_cases (accepts : String → Bool) (migrations : List Migration)
    (h : Keyed d.db) :
    (∃ e, rollbackOne accepts migrations d = (d, .error e) ∧
      ∀ version ∈ d.db.recorded.max?, ∀ m ∈ migrations.find? fun m => m.version = version,
        ∃ downSql ∈ m.downSql, ¬ accepts downSql) ∨
    ∃ version m, d.db.recorded.max? = some version ∧
      (migrations.find? fun m => m.version = version) = some m ∧
      (m.downSql = none ∧ rollbackOne accepts migrations d = (d, .ok ()) ∨
      ∃ downSql, m.downSql = some downSql ∧ accepts downSql ∧ ∃ before r after,
        d.db.tracking = some (before ++ r :: after) ∧ r.version = m.version ∧
          rollbackOne accepts migrations d =
            (⟨{ d.db with tracking := some (before ++ after) }, .down m :: d.log⟩, .ok ())) := by
  unfold rollbackOne
  cases happlied : d.db.appliedVersions with
  | none =>
    refine .inl ⟨_, rfl, ?_⟩
    rw [Database.recorded, happlied]
    intro version hv
    cases hv
  | some applied =>
    rw [recorded_of_applied happlied]
    dsimp only
    cases hmax : applied.max? with
    | none =>
      refine .inl ⟨_, rfl, ?_⟩
      intro version hv
      cases hv
    | some version =>
      dsimp only
      cases hfind : migrations.find? fun m => m.version = version with
      | none =>
        refine .inl ⟨_, rfl, ?_⟩
        intro version' hv m hm
        cases hv
        rw [hfind] at hm
        cases hm
      | some m =>
        dsimp only
        cases hdown : m.downSql with
        | none => exact .inr ⟨version, m, rfl, hfind, .inl ⟨hdown, rfl⟩⟩
        | some downSql =>
          dsimp only
          by_cases haccepts : accepts downSql
          · have hversion : m.version = version := by simpa using List.find?_some hfind
            have hrecorded : m.version ∈ d.db.recorded := by
              rw [recorded_of_applied happlied, hversion]
              exact List.max?_mem hmax
            obtain ⟨before, r, after, hrows, hr, hremove⟩ := h.remove hrecorded
            rw [if_neg (not_not_intro haccepts), hremove]
            exact .inr ⟨version, m, rfl, hfind,
              .inr ⟨downSql, hdown, haccepts, before, r, after, hrows, hr, rfl⟩⟩
          · rw [if_pos haccepts]
            refine .inl ⟨_, rfl, ?_⟩
            intro version' hv m' hm
            cases hv
            cases hfind.symm.trans hm
            exact ⟨downSql, hdown, haccepts⟩

theorem CallStep.keyed {call : Call} (h : Keyed d.db) (hstep : CallStep d call d') :
    Keyed d'.db := by
  cases call with
  | run migrations accepts =>
    obtain ⟨list, hrun⟩ := hstep
    exact runCall_keyed h hrun
  | rollbackOne migrations accepts =>
    subst hstep
    rcases rollbackOne_cases accepts migrations h with ⟨e, hroll, -⟩ |
      ⟨version, m, -, -, ⟨-, hroll⟩ | ⟨downSql, -, -, before, r, after, hrows, -, hroll⟩⟩
    · rw [hroll]
      exact h
    · rw [hroll]
      exact h
    · rw [hroll]
      constructor
      · intro rows he r' hr'
        cases he
        refine h.ranged _ hrows r' ?_
        rcases List.mem_append.mp hr' with hr' | hr'
        · exact List.mem_append_left _ hr'
        · exact List.mem_append_right _ (List.mem_cons_of_mem r hr')
      · intro rows he
        cases he
        exact (h.nodup _ hrows).sublist
          (((List.sublist_cons_self r after).append_left before).map Row.version)

/-- From any record, the one call. -/
theorem rollsBackLatest_iff (h : Keyed d.db) (call : Call) (d' : Deployment) :
    RollsBackLatest d call d' ↔ LatestIsLargest d call d' := by
  cases call with
  | run migrations accepts => exact Iff.rfl
  | rollbackOne migrations accepts =>
    unfold RollsBackLatest LatestIsLargest
    dsimp only
    rcases rollbackOne_cases accepts migrations h with ⟨e, hroll, hrefused⟩ |
      ⟨version, m, hmax, hfind, hcase⟩
    · rw [hroll]
      dsimp only
      have herror : ¬ (Except.error e : Except CallError Unit).isOk := Bool.false_ne_true
      refine iff_of_true ⟨fun hok => absurd hok herror, fun _ => ⟨herror, rfl⟩⟩ ?_
      intro version hv m hm
      obtain ⟨downSql, hdown, hno⟩ := hrefused version hv m hm
      exact ⟨downSql, hdown, fun hyes => absurd hyes hno⟩
    · rcases hcase with ⟨hdown, hroll⟩ | ⟨downSql, hdown, haccepts, before, r, after, hrows, hr, hroll⟩
      · rw [hroll]
        refine iff_of_false (fun hall => ?_) (fun hall => ?_)
        · obtain ⟨last, older, m', -, -, -, -, hlog⟩ := (hall.1 rfl).executed
          exact absurd (congrArg List.length hlog) (by simp)
        · obtain ⟨downSql, hsome, -⟩ := hall version hmax m hfind
          rw [hdown] at hsome
          cases hsome
      · rw [hroll]
        constructor
        · intro hall version' hv m' hm'
          cases hmax.symm.trans hv
          cases hfind.symm.trans hm'
          obtain ⟨last, older, m', hstill, -, hsame, -, hlog⟩ := (hall.1 rfl).executed
          cases hlog
          exact ⟨downSql, hdown, fun _ => ⟨last, by rw [hstill]; rfl, hsame⟩⟩
        · intro hall
          obtain ⟨downSql', hsome, hlatest⟩ := hall version hmax m hfind
          cases hdown.symm.trans hsome
          obtain ⟨last, hlast, hsame⟩ := hlatest haccepts
          obtain ⟨older, hstill⟩ := List.head?_eq_some_iff.mp hlast
          have hmem := List.mem_of_find?_eq_some hfind
          have hsection : m.downSql.isSome := by rw [hdown]; rfl
          refine ⟨fun _ => ⟨?_, ?_⟩, fun hno => absurd ⟨last, hlast, m, hmem, hsame, hsection⟩ hno⟩
          · exact ⟨last, older, m, hstill, hmem, hsame, hsection, rfl⟩
          · exact ⟨last, hlast, before, r, after, hrows, by rw [hr, hsame.1], rfl⟩

end Runs

/-! ## Calls as statements -/

section Statements

variable {migrations : List Migration} {db : Database}

/-- How the statements of a call end when the call returns `Ok`, or `Err`. -/
def EndsAs {α : Type} (outcome : α → Outcome → Prop) : Except CallError α → Phase → Prop
  | .ok a, phase => ∃ o, phase = .ended o ∧ outcome a o
  | .error e, phase => phase = .ended (.failed e)

theorem recordMigration_history (db : Database) (history : List Executed) (m : Migration) :
    ({ db with history := history } : Database).recordMigration m =
      (db.recordMigration m).map fun db => { db with history := history } := by
  unfold Database.recordMigration
  dsimp only
  split
  · rename_i rows version hrows hversion
    split <;> rfl
  · rfl

theorem findIdx?_of_find?_none {α : Type} {p : α → Bool} {l : List α} (h : l.find? p = none) :
    l.findIdx? p = none := by
  rw [List.findIdx?_eq_none_iff]
  simpa using h

theorem findIdx?_of_find?_some {α : Type} {p : α → Bool} {l : List α} {a : α}
    (h : l.find? p = some a) : ∃ i, l.findIdx? p = some i ∧ l[i]? = some a := by
  obtain ⟨hp, i, hi, ha, hbefore⟩ := List.find?_eq_some_iff_getElem.mp h
  refine ⟨i, List.findIdx?_eq_some_iff_getElem.mpr ⟨hi, by rw [ha]; exact hp, ?_⟩, ?_⟩
  · intro j hj
    simpa using hbefore j hj
  · rw [List.getElem?_eq_getElem hi, ha]

theorem leads_statement {w w' : World} (h : perform migrations w.db w.phase = some w') :
    Leads (Step migrations) w w' := by
  refine Leads.single (a := .statement true) ?_
  simp only [Step, exec, h]

theorem leads_failure {w : World} {e : CallError} (h : perform migrations w.db w.phase = none)
    (he : failure migrations w.phase = some e) :
    Leads (Step migrations) w ⟨w.db, .ended (.failed e)⟩ := by
  refine Leads.single (a := .statement true) ?_
  simp only [Step, exec, h, fail, he]

/-- The loop of `run`, by its statements: the rest of the files, and what is pending of
them. -/
theorem applyPending_leads (applied : List Nat) (before rest : List Migration)
    (hmigrations : migrations = before ++ rest) (places : List Nat) (d : Deployment)
    (history : List Executed) :
    ∃ history' phase, Leads (Step migrations)
      ⟨{ d.db with history := history },
        applyNext ((List.range' before.length rest.length).filter fun i =>
          versionOf migrations i ∉ applied) places⟩
      ⟨{ (applyPending (fun _ => true) applied rest (places.filterMap (migrations[·]?)) d).1.db with
          history := history' }, phase⟩ ∧
      EndsAs (fun list o => ∃ l, o = .migrated l ∧ list = l.filterMap (migrations[·]?))
        (applyPending (fun _ => true) applied rest (places.filterMap (migrations[·]?)) d).2 phase := by
  induction rest generalizing before places d history with
  | nil => exact ⟨history, _, Leads.refl _ _, _, rfl, places, rfl, rfl⟩
  | cons m rest ih =>
    have hget : migrations[before.length]? = some m := by simp [hmigrations]
    have hnext : migrations = (before ++ [m]) ++ rest := by simp [hmigrations]
    have hlength : (before ++ [m]).length = before.length + 1 := by simp
    have hversion : versionOf migrations before.length = m.version := versionOf_eq hget
    have ih := ih (before ++ [m]) hnext
    rw [hlength] at ih
    rw [applyPending, List.length_cons, List.range'_succ]
    by_cases hin : m.version ∈ applied
    · rw [if_pos hin, List.filter_cons_of_neg (by simpa [hversion] using hin)]
      exact ih places d history
    · rw [if_neg hin, if_neg (by decide), List.filter_cons_of_pos (by simpa [hversion] using hin)]
      have hexecute : Leads (Step migrations)
          ⟨{ d.db with history := history }, applyNext (before.length ::
            (List.range' (before.length + 1) rest.length).filter fun i =>
              versionOf migrations i ∉ applied) places⟩
          ⟨{ d.db with history := .up before.length :: history },
            .recording before.length ((List.range' (before.length + 1) rest.length).filter fun i =>
              versionOf migrations i ∉ applied) places⟩ :=
        leads_statement rfl
      have hrecord := recordMigration_history d.db (.up before.length :: history) m
      cases hr : d.db.recordMigration m with
      | none =>
        rw [hr] at hrecord
        refine ⟨_, _, hexecute.trans (leads_failure ?_ rfl), rfl⟩
        simp only [perform, hget, Option.bind_some, hrecord, Option.map_none]
      | some db =>
        rw [hr] at hrecord
        have hplaces : (places ++ [before.length]).filterMap (migrations[·]?) =
            places.filterMap (migrations[·]?) ++ [m] := by
          rw [List.filterMap_append, List.filterMap_cons_some hget, List.filterMap_nil]
        obtain ⟨history', phase, hleads, hends⟩ := ih (places ++ [before.length])
          ⟨db, .up m :: d.log⟩ (.up before.length :: history)
        rw [hplaces] at hleads hends
        refine ⟨history', phase, hexecute.trans (Leads.trans (leads_statement ?_) hleads), hends⟩
        simp only [perform, hget, Option.bind_some, hrecord, Option.map_some]

/-- When the database accepts everything, the statements of a `run` lead where the call
does. -/
theorem runCall_leads (migrations : List Migration) (d : Deployment) (history : List Executed)
    (outcome : Outcome) :
    ∃ history' phase, Leads (Step migrations) ⟨{ d.db with history := history }, .ended outcome⟩
      ⟨{ (runCall (fun _ => true) migrations d).1.db with history := history' }, phase⟩ ∧
      EndsAs (fun list o => ∃ l, o = .migrated l ∧ list = l.filterMap (migrations[·]?))
        (runCall (fun _ => true) migrations d).2 phase := by
  have hstart : Leads (Step migrations) ⟨{ d.db with history := history }, .ended outcome⟩
      ⟨{ d.db.ensureTrackingTable with history := history }, .selecting⟩ :=
    (Leads.single (a := .run) rfl).trans (leads_statement rfl)
  obtain ⟨history', phase, hleads, hends⟩ := applyPending_leads
    ((d.db.tracking.getD []).map fun r => asU64 r.version) [] migrations rfl []
    ⟨d.db.ensureTrackingTable, d.log⟩ history
  refine ⟨history', phase, hstart.trans (Leads.trans (leads_statement ?_) hleads), hends⟩
  simp only [perform, pending, List.range_eq_range']
  rfl

/-! What a `rollback_one` does once the versions are read. -/

section Choosing

variable {migrations : List Migration} {db : Database} {applied : List Nat} {i : Nat}

theorem perform_choosing_failed {e : CallError} (happlied : db.appliedVersions = some applied)
    (hlatest : latest migrations applied = .error e) :
    perform migrations db .choosing = some ⟨db, .ended (.failed e)⟩ := by
  simp only [perform, happlied, Option.map_some, hlatest]

theorem perform_choosing_reverting (happlied : db.appliedVersions = some applied)
    (hlatest : latest migrations applied = .ok i)
    (hdown : (migrations[i]?.bind Migration.downSql).isSome) :
    perform migrations db .choosing = some ⟨db, .reverting i⟩ := by
  simp only [perform, happlied, Option.map_some, hlatest, if_pos hdown]

theorem perform_choosing_nothing (happlied : db.appliedVersions = some applied)
    (hlatest : latest migrations applied = .ok i)
    (hdown : migrations[i]?.bind Migration.downSql = none) :
    perform migrations db .choosing = some ⟨db, .ended .rolledBack⟩ := by
  simp only [perform, happlied, Option.map_some, hlatest, hdown]
  rfl

end Choosing

/-- So do those of a `rollback_one`. -/
theorem rollbackOne_leads (migrations : List Migration) (d : Deployment)
    (history : List Executed) (outcome : Outcome) :
    ∃ history' phase, Leads (Step migrations) ⟨{ d.db with history := history }, .ended outcome⟩
      ⟨{ (rollbackOne (fun _ => true) migrations d).1.db with history := history' }, phase⟩ ∧
      EndsAs (fun _ o => o = .rolledBack) (rollbackOne (fun _ => true) migrations d).2 phase := by
  have hstart : Leads (Step migrations) ⟨{ d.db with history := history }, .ended outcome⟩
      ⟨{ d.db with history := history }, .choosing⟩ := Leads.single (a := .rollbackOne) rfl
  unfold rollbackOne
  cases happlied : d.db.appliedVersions with
  | none =>
    refine ⟨history, _, hstart.trans (leads_failure ?_ rfl), rfl⟩
    change (d.db.appliedVersions.map _) = none
    rw [happlied, Option.map_none]
  | some applied =>
    dsimp only
    cases hmax : applied.max? with
    | none =>
      have hlatest : latest migrations applied = .error .nothingToRollBack := by
        rw [latest, hmax]
      exact ⟨history, _, hstart.trans (leads_statement
        (perform_choosing_failed happlied hlatest)), rfl⟩
    | some version =>
      dsimp only
      cases hfind : migrations.find? fun m => m.version = version with
      | none =>
        have hlatest : latest migrations applied = .error (.notInFiles version) := by
          rw [latest, hmax]
          dsimp only
          rw [findIdx?_of_find?_none hfind]
        exact ⟨history, _, hstart.trans (leads_statement
          (perform_choosing_failed happlied hlatest)), rfl⟩
      | some m =>
        obtain ⟨i, hindex, hget⟩ := findIdx?_of_find?_some hfind
        have hversion : versionOf migrations i = m.version := versionOf_eq hget
        have hlatest : latest migrations applied = .ok i := by
          rw [latest, hmax]
          dsimp only
          rw [hindex]
        have hbind : migrations[i]?.bind Migration.downSql = m.downSql := by
          rw [hget, Option.bind_some]
        dsimp only
        cases hdown : m.downSql with
        | none =>
          exact ⟨history, _, hstart.trans (leads_statement
            (perform_choosing_nothing happlied hlatest (hbind.trans hdown))), _, rfl, rfl⟩
        | some downSql =>
          have hchoose : perform migrations { d.db with history := history } .choosing =
              some ⟨{ d.db with history := history }, .reverting i⟩ :=
            perform_choosing_reverting happlied hlatest (by rw [hbind, hdown]; rfl)
          have hexecute : Leads (Step migrations) ⟨{ d.db with history := history }, .reverting i⟩
              ⟨{ d.db with history := .down i :: history }, .removing i⟩ := leads_statement rfl
          have hthere := hstart.trans ((leads_statement hchoose).trans hexecute)
          dsimp only
          rw [if_neg (by decide)]
          have hperform : perform migrations { d.db with history := .down i :: history }
              (.removing i) = (d.db.removeMigration m.version).map fun db =>
                ⟨{ db with history := .down i :: history }, .ended .rolledBack⟩ := by
            simp only [perform, hversion, Database.removeMigration, Option.map_map]
            rfl
          cases hremove : d.db.removeMigration m.version with
          | none =>
            rw [hremove] at hperform
            exact ⟨_, _, hthere.trans (leads_failure hperform rfl), rfl⟩
          | some db =>
            rw [hremove] at hperform
            exact ⟨_, _, hthere.trans (leads_statement hperform), _, rfl, rfl⟩

end Statements

/-- **Rollbacks.** In every sequence of calls, each with its own files, every
`rollback_one` undoes the migration applied last, or cannot and changes nothing, exactly
if for every one of them the largest version on record is that of the migration applied
last, and has a down section. -/
theorem latest_rolled_back_iff (kind : DbKind) (tr : List (Call × Deployment))
    (hrun : Along CallStep (Deployment.new kind) tr) :
    Along RollsBackLatest (Deployment.new kind) tr ↔
      Along LatestIsLargest (Deployment.new kind) tr :=
  hrun.congr_of_invariant (fun _ call d' h hstep => ⟨hstep.keyed h, rollsBackLatest_iff h call d'⟩)
    (keyed_new kind)

def usersMigration : Migration :=
  ⟨1, "users", "CREATE TABLE users (id INT)", some "DROP TABLE users"⟩

def postsMigration : Migration :=
  ⟨2, "posts", "CREATE TABLE posts (id INT)", some "DROP TABLE posts"⟩

/-- One file, applied and rolled back. -/
theorem latest_rolled_back_iff_posts : ∃ tr d, tr.length = 2 ∧
    Along CallStep (Deployment.new .sqlite) tr ∧ last (Deployment.new .sqlite) tr = d ∧
      d.log = [.down postsMigration, .up postsMigration] ∧
      (Along RollsBackLatest (Deployment.new .sqlite) tr ↔
        Along LatestIsLargest (Deployment.new .sqlite) tr) := by
  have hrun : Along CallStep (Deployment.new .sqlite)
      [(.run [postsMigration] fun _ => true,
        (runCall (fun _ => true) [postsMigration] (Deployment.new .sqlite)).1),
      (.rollbackOne [postsMigration] fun _ => true, (rollbackOne (fun _ => true) [postsMigration]
        (runCall (fun _ => true) [postsMigration] (Deployment.new .sqlite)).1).1)] :=
    ⟨⟨[postsMigration], rfl⟩, rfl, trivial⟩
  exact ⟨_, _, rfl, hrun, rfl, by decide, latest_rolled_back_iff .sqlite _ hrun⟩

/-- The file of version 1 is added when version 2 is applied. -/
theorem later_migration_stays : ∃ d d' d'', Along CallStep (Deployment.new .sqlite)
    [(.run [postsMigration] fun _ => true, d),
      (.run [usersMigration, postsMigration] fun _ => true, d'),
      (.rollbackOne [usersMigration, postsMigration] fun _ => true, d'')] ∧
    stillApplied d'.log = [usersMigration, postsMigration] ∧
    d''.log = .down postsMigration :: d'.log ∧
    ¬ Along RollsBackLatest (Deployment.new .sqlite)
      [(.run [postsMigration] fun _ => true, d),
        (.run [usersMigration, postsMigration] fun _ => true, d'),
        (.rollbackOne [usersMigration, postsMigration] fun _ => true, d'')] := by
  refine ⟨(runCall (fun _ => true) [postsMigration] (Deployment.new .sqlite)).1,
    (runCall (fun _ => true) [usersMigration, postsMigration]
      (runCall (fun _ => true) [postsMigration] (Deployment.new .sqlite)).1).1, _,
    ⟨⟨[postsMigration], rfl⟩, ⟨[usersMigration], rfl⟩, rfl, trivial⟩, by decide, by decide, ?_⟩
  intro h
  obtain ⟨last, older, m, hstill, -, hsame, -, hlog⟩ := (h.2.2.1.1 rfl).executed
  cases hstill
  cases hlog
  exact absurd hsame (by decide)

end JustApi.Core.Migrations
