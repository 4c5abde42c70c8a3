import Mathlib.Algebra.Group.Int.Defs
import Mathlib.Data.List.Sort
import JustApi.Lib.Run
import JustApi.Lib.Result
import JustApi.Lib.Text
import JustApi.Core.Crud

/-! # Migrations

`Migrator` and the database it works on. Its calls are cut at the database: each
statement is a step of its own, which may succeed or fail, and between two statements
the process may stop. Statements of the tracking table are kept as data and not as SQL;
the migrations themselves leave that table alone. -/
namespace JustApi.Core.Migrations
open JustApi.Lib.Run JustApi.Lib.Result JustApi.Lib.Text JustApi.Core.Crud

structure Migration where
  version : Nat
  name : String
  upSql : String
  downSql : Option String
  deriving DecidableEq, Repr

/-! ## Migration files -/

/-- `u64::from_str`. -/
def parseU64 (raw : List Char) : Option Nat :=
  match raw with
  | '+' :: digits => (parseDigits digits).filter (· < 2 ^ 64)
  | digits => (parseDigits digits).filter (· < 2 ^ 64)

def parseFilename (filename : String) : Option (Nat × String) :=
  let cs := filename.toList
  if ".sql".toList <:+ cs then
    let stem := cs.take (cs.length - 4)
    if '_' ∈ stem then
      (parseU64 (stem.takeWhile (· ≠ '_'))).map fun version =>
        (version, String.ofList ((stem.dropWhile (· ≠ '_')).drop 1))
    else none
  else none

/-- A section without the markers in front of it. -/
def sectionText (marker : String) (cs : List Char) : String :=
  let cs := trim cs
  String.ofList (trim (trimStartMatches marker.toList cs.length cs))

def parseContent (content : String) : String × Option String :=
  match findPattern "-- DOWN".toList content.toList with
  | some (up, down) => (sectionText "-- UP" up, some (sectionText "-- DOWN" (down.drop 7)))
  | none => (sectionText "-- UP" content.toList, none)

/-- An entry of the directory: its name, and what reading it gives. -/
structure DirEntry where
  fileName : String
  content : Except String String
  deriving DecidableEq, Repr

inductive DiscoverError where
  | directoryNotFound
  /-- `Migration filename must be <version>_<name>.sql, got: …` -/
  | badFilename (filename : String)
  | cannotRead (filename : String) (error : String)
  deriving DecidableEq, Repr

def fromFile (entry : DirEntry) : Except DiscoverError Migration :=
  match parseFilename entry.fileName with
  | none => .error (.badFilename entry.fileName)
  | some (version, name) =>
    match entry.content with
    | .error e => .error (.cannotRead entry.fileName e)
    | .ok content => .ok ⟨version, name, (parseContent content).1, (parseContent content).2⟩

/-- The extension of the file name is `sql`. -/
def isSqlFile (entry : DirEntry) : Bool :=
  ".sql".toList <:+ entry.fileName.toList ∧ entry.fileName ≠ ".sql"

/-- The migrations of a directory, whose entries come in any order, by version. Files
with one version stay in the order they were read in. -/
def discover (dir : Option (List DirEntry)) : Except DiscoverError (List Migration) :=
  match dir with
  | none => .error .directoryNotFound
  | some entries =>
    ((entries.filter isSqlFile).mapM fromFile).map
      (List.insertionSort fun m m' => m.version ≤ m'.version)

/-- Every migration file of the directory is there, by version. -/
theorem discover_ok {entries : List DirEntry} {migrations : List Migration}
    (h : discover (some entries) = .ok migrations) :
    migrations.Pairwise (fun m m' => m.version ≤ m'.version) ∧
      ∃ parsed, (entries.filter isSqlFile).mapM fromFile = .ok parsed ∧ migrations.Perm parsed := by
  obtain ⟨parsed, hparsed, rfl⟩ := map_eq_ok.mp h
  have : Std.Total fun m m' : Migration => m.version ≤ m'.version := ⟨fun _ _ => Nat.le_total _ _⟩
  have : IsTrans Migration fun m m' => m.version ≤ m'.version := ⟨fun _ _ _ => Nat.le_trans⟩
  exact ⟨List.pairwise_insertionSort _ parsed, parsed, hparsed, List.perm_insertionSort _ parsed⟩

/-! ## The database -/

structure Row where
  version : Int
  name : String
  deriving DecidableEq, Repr

/-- A statement of a migration that succeeded; migrations are told by their place in the
sorted list. -/
inductive Executed where
  | up (i : Nat)
  | down (i : Nat)
  deriving DecidableEq, Repr

structure Database where
  kind : DbKind
  /-- `_justapi_migrations`, once it has been created -/
  tracking : Option (List Row)
  /-- The migrations' statements that succeeded, the latest first. -/
  history : List Executed
  deriving DecidableEq, Repr

/-- The value of `version` a row gets: the column holds 64 bits with a sign. PostgreSQL
and SQLite refuse a larger number, `INSERT IGNORE` of MySQL takes the largest. -/
def storedVersion (kind : DbKind) (version : Nat) : Option Int :=
  if version < 2 ^ 63 then some version
  else
    match kind with
    | .mySql => some (2 ^ 63 - 1)
    | .postgres | .sqlite => none

/-- The cast from `i64` to `u64`. -/
def asU64 (version : Int) : Nat := (version % 2 ^ 64).toNat

namespace Database

def ensureTrackingTable (db : Database) : Database :=
  { db with tracking := some (db.tracking.getD []) }

/-- `get_applied_versions`, none when there is no table. -/
def appliedVersions (db : Database) : Option (List Nat) :=
  db.tracking.map fun rows => rows.map fun r => asU64 r.version

/-- The versions on record. -/
def recorded (db : Database) : List Nat := db.appliedVersions.getD []

/-- A row with the version that is there already stays. -/
def recordMigration (db : Database) (m : Migration) : Option Database :=
  match db.tracking, storedVersion db.kind m.version with
  | some rows, some version =>
    if rows.any fun r => r.version = version then some db
    else some { db with tracking := some (rows ++ [⟨version, m.name⟩]) }
  | _, _ => none

def removeMigration (db : Database) (version : Nat) : Option Database :=
  db.tracking.map fun rows => { db with tracking := some (rows.filter fun r => r.version ≠ version) }

def execute (db : Database) (statement : Executed) : Database :=
  { db with history := statement :: db.history }

end Database

/-! ## Calls -/

/-- Why a call returned `Err`. -/
inductive CallError where
  | createTrackingTable
  | queryApplied
  | migration (version : Nat)
  | recordMigration
  | nothingToRollBack
  | notInFiles (version : Nat)
  | rollback (version : Nat)
  | deleteMigration
  deriving DecidableEq, Repr

/-- How the latest call ended. -/
inductive Outcome where
  /-- The process stopped, or has just been started. -/
  | stopped
  /-- `run` returned `Ok` with the migrations it applied. -/
  | migrated (appliedList : List Nat)
  | rolledBack
  | failed (error : CallError)
  deriving DecidableEq, Repr

/-- Where the process is: at which statement of which call. -/
inductive Phase where
  | ended (outcome : Outcome)
  | creating
  | selecting
  /-- before the `up_sql` of the first migration of `todo`, which is not empty -/
  | applying (todo appliedList : List Nat)
  | recording (i : Nat) (todo appliedList : List Nat)
  /-- `rollback_one` before its query -/
  | choosing
  | reverting (i : Nat)
  | removing (i : Nat)
  deriving DecidableEq, Repr

structure World where
  db : Database
  phase : Phase
  deriving DecidableEq, Repr

def World.new (kind : DbKind) : World := ⟨⟨kind, none, []⟩, .ended .stopped⟩

inductive Event where
  | run
  | rollbackOne
  /-- The next statement of the call succeeds or fails. -/
  | statement (succeeds : Bool)
  /-- The process stops. -/
  | stop
  deriving DecidableEq, Repr

section Calls

variable (migrations : List Migration)

/-- The version of a migration of the list. -/
def versionOf (i : Nat) : Nat := (migrations[i]?.map Migration.version).getD 0

/-- The migrations that `applied` does not have. -/
def pending (applied : List Nat) : List Nat :=
  (List.range migrations.length).filter fun i => versionOf migrations i ∉ applied

/-- The loop of `run`, at the head of its body. -/
def applyNext (todo appliedList : List Nat) : Phase :=
  if todo = [] then .ended (.migrated appliedList) else .applying todo appliedList

/-- The migration `rollback_one` reverts: the first with the largest version. -/
def latest (applied : List Nat) : Except CallError Nat :=
  match applied.max? with
  | none => .error .nothingToRollBack
  | some version =>
    match migrations.findIdx? fun m => m.version = version with
    | none => .error (.notInFiles version)
    | some i => .ok i

/-- What a failing statement makes the call return. -/
def failure : Phase → Option CallError
  | .ended _ | .applying [] _ => none
  | .creating => some .createTrackingTable
  | .selecting | .choosing => some .queryApplied
  | .applying (i :: _) _ => some (.migration (versionOf migrations i))
  | .recording _ _ _ => some .recordMigration
  | .reverting i => some (.rollback (versionOf migrations i))
  | .removing _ => some .deleteMigration

/-- What a statement that can succeed does, and where the call goes on. -/
def perform (db : Database) : Phase → Option World
  | .ended _ | .applying [] _ => none
  | .creating => some ⟨db.ensureTrackingTable, .selecting⟩
  | .selecting =>
    db.appliedVersions.map fun applied => ⟨db, applyNext (pending migrations applied) []⟩
  | .applying (i :: todo) appliedList =>
    some ⟨db.execute (.up i), .recording i todo appliedList⟩
  | .recording i todo appliedList =>
    (migrations[i]?.bind db.recordMigration).map fun db =>
      ⟨db, applyNext todo (appliedList ++ [i])⟩
  | .choosing =>
    db.appliedVersions.map fun applied =>
      match latest migrations applied with
      | .error e => ⟨db, .ended (.failed e)⟩
      | .ok i =>
        -- without `down_sql` there is nothing to do, and the record stays
        if (migrations[i]?.bind Migration.downSql).isSome then ⟨db, .reverting i⟩
        else ⟨db, .ended .rolledBack⟩
  | .reverting i => some ⟨db.execute (.down i), .removing i⟩
  | .removing i =>
    (db.removeMigration (versionOf migrations i)).map fun db => ⟨db, .ended .rolledBack⟩

def fail (w : World) : Except Disabled World :=
  match failure migrations w.phase with
  | none => .error .disabled
  | some e => .ok ⟨w.db, .ended (.failed e)⟩

/-- A statement that cannot succeed fails. -/
def exec (w : World) : Event → Except Disabled World
  | .run =>
    match w.phase with
    | .ended _ => .ok ⟨w.db, .creating⟩
    | _ => .error .disabled
  | .rollbackOne =>
    match w.phase with
    | .ended _ => .ok ⟨w.db, .choosing⟩
    | _ => .error .disabled
  | .statement true =>
    match perform migrations w.db w.phase with
    | some w' => .ok w'
    | none => fail migrations w
  | .statement false => fail migrations w
  | .stop => .ok ⟨w.db, .ended .stopped⟩

def Step (w : World) (event : Event) (w' : World) : Prop := exec migrations w event = .ok w'

end Calls

end JustApi.Core.Migrations
