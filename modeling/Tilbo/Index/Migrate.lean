import Tilbo.Lib.Scripts
import Tilbo.Lib.Steps
import Mathlib.Data.List.Sort
import Mathlib.Logic.Function.Basic

/-! # The migrations of the index

`Open` runs `Migrate`, which executes each file of `migrations` that is not recorded in `schema_migrations`, and then
records it. The statements of a file are no transaction: each takes effect for itself, and the daemon can be stopped between
any two of them, or between the last and the record. A power cut can take back the last ones, too.

`migrates_of_run`: in every run of daemons, of the same or ever newer versions, an `Open` that succeeds leaves the schema of
a new index; it fails only if a statement fails for reasons of its own; and no rows are lost but those of the table of
embeddings that `0005_vec_embeddings.sql` replaces. One daemon has the index open at a time. -/

namespace Tilbo.Index.Migrate

open Tilbo.Lib.Steps (Meets meets_any)
open Tilbo.Lib.Scripts Tilbo.Lib.Txn Tilbo.Lib.Txn.Prog

/-! ### The schema -/

/-- The names of `sqlite_master`. -/
inductive Name where
  | schemaMigrations
  | files
  | filesInodeDevice
  | filesMtime
  | tags
  | tagsName
  | fileTags
  | fileTagsTagId
  | fileTagsFileId
  | metadata
  | metadataKeyValue
  | tagProvenance
  | tagOverrides
  | tagCardinalityInc
  | tagCardinalityDec
  | metadataFts
  | metadataFtsInsert
  | metadataFtsDelete
  | metadataFtsUpdate
  | sidecarData
  | fileEmbeddings
  | filesIndexedAt
deriving DecidableEq

inductive Kind where
  | table
  /-- `USING fts5` -/
  | fts5
  /-- `USING vec0` -/
  | vec0
  | index (table : Name)
  | trigger (table : Name)
deriving DecidableEq

/-- An entry of `sqlite_master`. What columns a table has, and what a trigger does, is that of `Tilbo.Index.Schema` and
`Tilbo.Index.Statements`. -/
structure Object where
  name : Name
  kind : Kind
deriving DecidableEq

namespace Kind

def isTable : Kind → Bool
  | table | fts5 | vec0 => true
  | index _ | trigger _ => false

def isTrigger : Kind → Bool
  | trigger _ => true
  | _ => false

/-- The table that an index or a trigger is on. -/
def on : Kind → Option Name
  | index t | trigger t => some t
  | _ => none

end Kind

/-- A table for a table, an index for an index, a trigger for a trigger. -/
def Object.alike (o o' : Object) : Bool :=
  o.name = o'.name ∧ o.kind.isTable = o'.kind.isTable ∧ o.kind.isTrigger = o'.kind.isTrigger

/-- Tables and indexes share their names, triggers have their own. -/
def Object.clashes (o o' : Object) : Bool := o.name = o'.name ∧ o.kind.isTrigger = o'.kind.isTrigger

/-- There is a table of that name. -/
def hasTable (os : List Object) (name : Name) : Bool := os.any fun o => o.name = name ∧ o.kind.isTable

inductive Stmt where
  /-- `CREATE … IF NOT EXISTS`, or without. -/
  | create (ifNotExists : Bool) (o : Object)
  /-- `DROP TABLE IF EXISTS`. -/
  | dropTable (name : Name)
deriving DecidableEq

inductive Error where
  /-- The driver failed (disk, lock, cancelled context), or the daemon was stopped. -/
  | driver
  /-- "there is already an object of that name" -/
  | exists (name : Name)
  /-- "no such table" -/
  | noSuchTable (name : Name)
  /-- "UNIQUE constraint failed: schema_migrations.version" -/
  | recorded (version : ℕ)
  /-- `fmt.Errorf` around another error. -/
  | wrapped (format : String) (args : List String) (cause : Error)
deriving DecidableEq

/-- What a statement makes of the schema. -/
def Stmt.schema : Stmt → List Object → Except Error (List Object)
  | create ifNotExists o, os =>
    if os.any o.alike then if ifNotExists then .ok os else .error (.exists o.name)
    else if os.any o.clashes then .error (.exists o.name)
    else if o.kind.on.all (hasTable os) then .ok (os ++ [o])
    else .error (.noSuchTable (o.kind.on.getD o.name))
  | dropTable name, os => .ok (os.filter fun o => ¬ (o.name = name ∧ o.kind.isTable) ∧ o.kind.on ≠ some name)

/-- The table that is empty after a statement: one that it creates, or takes away. -/
def Stmt.clears : Stmt → List Object → Option Name
  | create _ o, os => if o.kind.isTable ∧ ¬ os.any o.alike then some o.name else none
  | dropTable name, _ => some name

/-! ### The files -/

/-- A file of `migrations`. -/
structure File where
  name : String
  statements : List Stmt

def initial : List Object :=
  [⟨.schemaMigrations, .table⟩, ⟨.files, .table⟩, ⟨.filesInodeDevice, .index .files⟩, ⟨.filesMtime, .index .files⟩,
    ⟨.tags, .table⟩, ⟨.tagsName, .index .tags⟩, ⟨.fileTags, .table⟩, ⟨.fileTagsTagId, .index .fileTags⟩,
    ⟨.fileTagsFileId, .index .fileTags⟩, ⟨.metadata, .table⟩, ⟨.metadataKeyValue, .index .metadata⟩,
    ⟨.tagProvenance, .table⟩, ⟨.tagOverrides, .table⟩, ⟨.tagCardinalityInc, .trigger .fileTags⟩,
    ⟨.tagCardinalityDec, .trigger .fileTags⟩]

def fts : List Object :=
  [⟨.metadataFts, .fts5⟩, ⟨.metadataFtsInsert, .trigger .metadata⟩, ⟨.metadataFtsDelete, .trigger .metadata⟩,
    ⟨.metadataFtsUpdate, .trigger .metadata⟩]

/-- The table of embeddings of `0004_embeddings.sql`. -/
def blobs : Object := ⟨.fileEmbeddings, .table⟩

/-- That of `0005_vec_embeddings.sql`. -/
def vectors : Object := ⟨.fileEmbeddings, .vec0⟩

def migrations : List File :=
  [⟨"0001_initial.sql", initial.map (.create true)⟩,
    ⟨"0002_fts5.sql", fts.map (.create true)⟩,
    ⟨"0003_sidecar.sql", [.create true ⟨.sidecarData, .table⟩]⟩,
    ⟨"0004_embeddings.sql", [.create true blobs]⟩,
    ⟨"0005_vec_embeddings.sql", [.dropTable .fileEmbeddings, .create false vectors]⟩,
    ⟨"0006_perf.sql", [.create true ⟨.filesIndexedAt, .index .files⟩]⟩]

/-- What a version of the daemon has embedded: the first files. -/
def release (n : ℕ) : List File := migrations.take n

/-- `fmt.Sscanf(entry.Name(), "%d", &version)`, of a name that begins with no sign or space. -/
def versionOf (name : String) : Option ℕ :=
  let digits := name.toList.takeWhile Char.isDigit
  if digits = [] then none else some (digits.foldl (fun n c => 10 * n + (c.toNat - '0'.toNat)) 0)

/-! ### The index -/

variable {R : Type}

/-- The database, with the versions in `schema_migrations` apart from the rows of the other tables. -/
structure DB (R : Type) where
  objects : List Object
  rows : Name → List R
  applied : List ℕ

def blank : DB R := ⟨[], fun _ => [], []⟩

def exec (b : Stmt) (db : DB R) : Except Error (DB R) :=
  (b.schema db.objects).map fun os =>
    { db with objects := os, rows := (b.clears db.objects).elim db.rows fun name => Function.update db.rows name [] }

abbrev Sql (R α : Type) : Type := Prog (DB R) Error α

def errorf {α : Type} (format : String) (args : List String) (m : Sql R α) : Sql R α := wrap (Error.wrapped format args) m

/-- `INSERT INTO schema_migrations`. -/
def record (version : ℕ) (db : DB R) : Except Error (Unit × DB R) :=
  if version ∈ db.applied then .error (.recorded version) else .ok ((), { db with applied := db.applied ++ [version] })

/-- The body of the loop of `Migrate`, for a file with a version. -/
def applyFile (file : File) (version : ℕ) : Sql R Unit := do
  let applied ← errorf "index: check migration %d: %w" [toString version]
    (stmt .driver fun db => .ok (db.applied.count version, db))
  if applied > 0 then return ()
  else do
    errorf "index: apply migration %d (%s): %w" [toString version, file.name] (script exec .driver file.statements)
    errorf "index: record migration %d: %w" [toString version] (stmt .driver (record version))

/-- `DB.Migrate`. -/
def migrate (files : List File) : Sql R Unit := do
  errorf "index: bootstrap schema_migrations: %w" [] (script exec .driver [.create true ⟨.schemaMigrations, .table⟩])
  each (fun file =>
    if ".sql".toList <:+ file.name.toList then (versionOf file.name).elim (pure ()) (applyFile file) else pure ())
    (files.insertionSort fun f g => f.name ≤ g.name)

/-- A `PRAGMA`. -/
def pragma : Sql R Unit := stmt .driver fun db => .ok ((), db)

/-- `Open`, with the files that are embedded. -/
def openDB (files : List File) : Sql R Unit := do
  errorf "index: set WAL: %w" [] pragma
  errorf "index: set synchronous: %w" [] pragma
  errorf "index: enable foreign keys: %w" [] pragma
  errorf "index: set mmap_size: %w" [] pragma
  errorf "index: set cache_size: %w" [] pragma
  migrate files

/-! ### Runs -/

/-- The index, and the daemon that has it open. -/
structure State (R : Type) where
  db : DB R
  /-- What a power cut may leave. -/
  durable : DB R → Prop
  /-- The number of files of the newest version that was started. -/
  newest : ℕ
  /-- `Open` has succeeded. -/
  ready : Prop

inductive Action where
  /-- A daemon with so many files is started, and these of its statements fail. -/
  | open (n : ℕ) (faults : List Bool)
  | other

def start : State R := ⟨blank, (· = blank), 0, False⟩

/-- What a daemon leaves that is started. -/
def State.opened (s : State R) (n : ℕ) (faults : List Bool) : DB R := (openDB (release n) ⟨s.db, faults⟩).2.store

inductive Step (s : State R) : Action → State R → Prop
  | launch {n : ℕ} {faults : List Bool} (hnewer : s.newest ≤ n) (hn : n ≤ migrations.length) : Step s (.open n faults)
      { db := s.opened n faults
        durable := fun db => s.durable db ∨ ∃ faults', db = s.opened n faults'
        newest := n
        ready := (openDB (release n) ⟨s.db, faults⟩).1 = .ok () }
  /-- The daemon changes rows. -/
  | use {rows : Name → List R} (hready : s.ready) (hrows : ∀ n, hasTable s.db.objects n = false → rows n = s.db.rows n) :
      Step s .other { s with
        db := { s.db with rows := rows }
        durable := fun db => s.durable db ∨ db = { s.db with rows := rows } }
  /-- What was written is on the disk. -/
  | checkpoint : Step s .other { s with durable := (· = s.db) }
  | stop : Step s .other { s with ready := False }
  | powerCut {db : DB R} (hdb : s.durable db) : Step s .other { s with db := db, durable := (· = db), ready := False }

/-! ### What is to hold -/

/-- What a start of a daemon does. -/
structure Opens (s : State R) (n : ℕ) (faults : List Bool) : Prop where
  /-- If `Open` succeeds, the schema is that of a new index. -/
  schema : (openDB (release n) ⟨s.db, faults⟩).1 = .ok () →
    (s.opened n faults).objects = ((openDB (release n) ⟨(blank : DB R), []⟩).2.store).objects ∧
      (s.opened n faults).applied = (List.range n).map (· + 1)
  /-- It would succeed if no statement failed for reasons of its own. -/
  succeeds : (openDB (release n) ⟨s.db, []⟩).1 = .ok ()
  /-- Rows are kept, but for those of the table that `0005_vec_embeddings.sql` replaces. -/
  rows : ∀ name, (s.opened n faults).rows name = s.db.rows name ∨ name = .fileEmbeddings ∧ blobs ∈ s.db.objects ∧ 4 < n

/-! ### Stages

A file is done when it is recorded; of the first that is not, some statements may have taken effect. -/

def statements (k : ℕ) : List Stmt := (migrations[k]?.map File.statements).getD []

/-- What `CREATE … IF NOT EXISTS` is to create. -/
def Stmt.created : Stmt → Option Object
  | create true o => some o
  | _ => none

/-- The table that is taken away. -/
def Stmt.dropped : Stmt → Option Name
  | dropTable name => some name
  | create _ _ => none

/-- The schema after these statements, of those that go through. -/
def play (l : List Stmt) (os : List Object) : List Object := l.foldl (fun os b => (b.schema os).toOption.getD os) os

/-- The schema after so many files. -/
def schemaAt : ℕ → List Object
  | 0 => [⟨.schemaMigrations, .table⟩]
  | k + 1 => play (statements k) (schemaAt k)

/-- The schema before the statement with the number `i` of a file, in a run of it after others that were stopped. Of
`0005_vec_embeddings.sql`, which begins with taking away what it creates, just those before it have taken effect. -/
def Before (k i : ℕ) (os : List Object) : Prop :=
  ∃ j, i ≤ j ∧ j ≤ (statements k).length ∧ (k = 4 → i = 0 ∨ j = i) ∧ os = play ((statements k).take j) (schemaAt k)

/-- The first `k` files are recorded, and `j` statements of the next have taken effect. -/
structure At (k j : ℕ) (db : DB R) : Prop where
  objects : db.objects = play ((statements k).take j) (schemaAt k)
  applied : db.applied = (List.range k).map (· + 1)

/-- A version with `n` files gets as far. -/
def Within (n k j : ℕ) : Prop := k < n ∧ j ≤ (statements k).length ∨ k = n ∧ j = 0

/-- What is said of rows: there are none without a table, and none in the new table of embeddings before it is recorded. -/
structure Tidy (db : DB R) : Prop where
  absent : ∀ name, hasTable db.objects name = false → db.rows name = []
  fresh : 5 ∉ db.applied → blobs ∉ db.objects → db.rows .fileEmbeddings = []

/-- Where the index can be, with versions of at most `n` files. -/
structure Reached (n : ℕ) (db : DB R) : Prop where
  stage : db.objects = [] ∧ db.applied = [] ∨ ∃ k j, Within n k j ∧ At k j db
  tidy : Tidy db

/-- What a version with `n` files has kept of an index. -/
structure Kept (old : DB R) (n : ℕ) (db : DB R) : Prop where
  rows : ∀ name, db.rows name = old.rows name ∨ name = .fileEmbeddings ∧ db.rows name = [] ∧ 5 ∉ old.applied ∧ 4 < n
  applied : ∀ v ∈ old.applied, v ∈ db.applied

/-! ### Statements that are executed again -/

section Schema
variable {b : Stmt} {l l' : List Stmt} {o : Object} {os os' base : List Object} {name : Name} {i j k n : ℕ}

theorem play_append : play (l ++ l') os = play l' (play l os) := List.foldl_append

theorem play_of_ok (h : b.schema os = .ok os') : play [b] os = os' := by
  show (b.schema os).toOption.getD os = os'
  rw [h]
  rfl

theorem alike_self : o.alike o = true := by simp [Object.alike]

/-- What a statement that creates something leaves. -/
theorem schema_create {ifNotExists : Bool} (h : (Stmt.create ifNotExists o).schema os = .ok os') :
    os' = os ∧ os.any o.alike = true ∨ os' = os ++ [o] ∧ os.any o.alike = false := by
  dsimp only [Stmt.schema] at h
  split_ifs at h with hany hif hclash hon
  · exact .inl ⟨(Except.ok.inj h).symm, hany⟩
  · exact .inr ⟨(Except.ok.inj h).symm, by simpa using hany⟩

theorem subset_schema (h : (Stmt.create true o).schema os = .ok os') : os ⊆ os' := by
  rcases schema_create h with ⟨rfl, -⟩ | ⟨rfl, -⟩
  · exact fun _ => id
  · exact List.subset_append_left _ _

theorem subset_play (hl : ∀ b ∈ l, ∃ o, b = .create true o) : os ⊆ play l os := by
  induction l generalizing os with
  | nil => exact fun _ => id
  | cons b l ih =>
    obtain ⟨o, rfl⟩ := hl b List.mem_cons_self
    have hrest : play [.create true o] os ⊆ play l (play [.create true o] os) := ih fun b hb => hl b (List.mem_cons_of_mem _ hb)
    rw [← List.singleton_append, play_append]
    refine List.Subset.trans ?_ hrest
    rcases hschema : (Stmt.create true o).schema os with e | os'
    · show os ⊆ ((Stmt.create true o).schema os).toOption.getD os
      rw [hschema]
      exact fun _ => id
    · rw [play_of_ok hschema]
      exact subset_schema hschema

theorem isCreate_statements (hk : k < migrations.length) (hfour : k ≠ 4) : ∀ b ∈ statements k, ∃ o, b = .create true o := by
  have hall : ∀ k < 6, k ≠ 4 → (statements k).all fun b => b.created.isSome := by decide
  intro b hb
  obtain ⟨o, ho⟩ := Option.isSome_iff_exists.mp (List.all_eq_true.mp (hall k hk hfour) b hb)
  refine ⟨o, ?_⟩
  rcases b with ⟨_ | _, o'⟩ | name
  · cases ho
  · rw [Option.some.inj ho]
  · cases ho

/-- Run once, each statement goes through. -/
theorem schema_statements (hk : k < migrations.length) {i : ℕ} (hi : i < (statements k).length) :
    (statements k)[i].schema (play ((statements k).take i) (schemaAt k)) =
      .ok (play ((statements k).take (i + 1)) (schemaAt k)) := by
  have hall : ∀ k < 6, ∀ i < (statements k).length,
      ((statements k)[i]?.all fun b => (b.schema (play ((statements k).take i) (schemaAt k))).isOk) = true := by
    decide +kernel
  have hok := hall k hk i hi
  rw [List.getElem?_eq_getElem hi, Option.all_some] at hok
  rcases hos : (statements k)[i].schema (play ((statements k).take i) (schemaAt k)) with e | os
  · rw [hos] at hok
    cases hok
  · rw [List.take_add_one, List.getElem?_eq_getElem hi, Option.toList_some, play_append, play_of_ok hos]

/-- A statement `CREATE … IF NOT EXISTS` that has taken effect does nothing. -/
theorem schema_again (hk : k < migrations.length) (hfour : k ≠ 4) (hij : i < j) (hi : i < (statements k).length) :
    (statements k)[i].schema (play ((statements k).take j) (schemaAt k)) = .ok (play ((statements k).take j) (schemaAt k)) := by
  have hcreates := isCreate_statements hk hfour
  obtain ⟨o, ho⟩ := hcreates _ (List.getElem_mem hi)
  have hthere : (play ((statements k).take (i + 1)) (schemaAt k)).any o.alike = true := by
    have hcreated := schema_statements hk hi
    rw [ho] at hcreated
    rcases schema_create hcreated with ⟨heq, hany⟩ | ⟨heq, -⟩
    · rwa [heq]
    · rw [heq, List.any_append]
      simp [alike_self]
  have htake : (statements k).take j = (statements k).take (i + 1) ++ ((statements k).take j).drop (i + 1) := by
    conv_lhs => rw [← List.take_append_drop (i + 1) ((statements k).take j), List.take_take, Nat.min_eq_left hij]
  have hsubset : play ((statements k).take (i + 1)) (schemaAt k) ⊆ play ((statements k).take j) (schemaAt k) := by
    rw [htake, play_append]
    exact subset_play fun b hb => hcreates b (List.mem_of_mem_take (List.mem_of_mem_drop hb))
  obtain ⟨o', ho', halike⟩ := List.any_eq_true.mp hthere
  have hany : (play ((statements k).take j) (schemaAt k)).any o.alike = true := List.any_eq_true.mpr ⟨o', hsubset ho', halike⟩
  rw [ho, Stmt.schema, if_pos hany, if_pos rfl]

/-- **Each file can be run again.** -/
theorem resumable_statements (hk : k < migrations.length) : Resumable Stmt.schema (statements k) (Before k) := by
  refine ⟨fun i hi os hos => ?_, fun i _ os hos => ?_⟩
  · obtain ⟨j, hij, hj, hfour, rfl⟩ := hos
    rcases hij.lt_or_eq with hlt | rfl
    · by_cases hk' : k = 4
      · subst hk'
        obtain rfl := (hfour rfl).resolve_right (by omega)
        -- The table that may be there is taken away.
        have hdrop : ∀ j ≤ (statements 4).length, (Stmt.dropTable .fileEmbeddings).schema
            (play ((statements 4).take j) (schemaAt 4)) = .ok (play ((statements 4).take 1) (schemaAt 4)) := by
          have hall : ∀ j ≤ 2, ((Stmt.dropTable .fileEmbeddings).schema
            (play ((statements 4).take j) (schemaAt 4))).toOption = some (play ((statements 4).take 1) (schemaAt 4)) := by
            decide +kernel
          intro j hj
          exact congrArg Except.ok (Option.some.inj (hall j hj))
        exact ⟨_, hdrop j hj, 1, le_rfl, by decide, fun _ => .inr rfl, rfl⟩
      · exact ⟨_, schema_again hk hk' hlt hi, j, hlt, hj, fun h => absurd h hk', rfl⟩
    · exact ⟨_, schema_statements hk hi, i + 1, le_rfl, hi, fun _ => .inr rfl, rfl⟩
  · obtain ⟨j, -, hj, -, rfl⟩ := hos
    exact ⟨j, Nat.zero_le j, hj, fun _ => .inl rfl, rfl⟩

theorem dropped_statements (hk : k < migrations.length) {b : Stmt} (hb : b ∈ statements k) :
    b.dropped = none ∨ b.dropped = some .fileEmbeddings ∧ k = 4 := by
  have hall : ∀ k < 6, ∀ b ∈ statements k, b.dropped = none ∨ b.dropped = some .fileEmbeddings ∧ k = 4 := by decide
  exact hall k hk b hb

end Schema

/-! ### What a statement does to rows -/

section Rows
variable {b : Stmt} {db old : DB R} {os : List Object} {name : Name} {k n : ℕ}

theorem hasTable_iff : hasTable os name = true ↔ ∃ o ∈ os, o.name = name ∧ o.kind.isTable = true := by
  simp [hasTable]

theorem isTrigger_of_isTable {kind : Kind} (h : kind.isTable = true) : kind.isTrigger = false := by
  cases kind <;> first | rfl | cases h

theorem on_of_isTable {kind : Kind} (h : kind.isTable = true) : kind.on = none := by
  cases kind <;> first | rfl | cases h

/-- A table that is created was not there. -/
theorem clears_of_dropped_none (hdropped : b.dropped = none) (hclears : b.clears os = some name) :
    hasTable os name = false := by
  rcases b with ⟨ifNotExists, o⟩ | name'
  · dsimp only [Stmt.clears] at hclears
    split_ifs at hclears with h
    obtain rfl := Option.some.inj hclears
    by_contra hno
    obtain ⟨o', ho', hname, htable⟩ := hasTable_iff.mp (Bool.of_not_eq_false hno)
    refine h.2 (List.any_eq_true.mpr ⟨o', ho', ?_⟩)
    simp [Object.alike, hname, h.1, htable, isTrigger_of_isTable]
  · cases hdropped

/-- A table stays where it is not taken away. -/
theorem mem_schema {os' : List Object} {o : Object} (h : b.schema os = .ok os') (ho : o ∈ os) (hkind : o.kind.isTable = true)
    (hdropped : b.dropped ≠ some o.name) : o ∈ os' := by
  rcases b with ⟨ifNotExists, o'⟩ | name'
  · rcases schema_create h with ⟨rfl, -⟩ | ⟨rfl, -⟩
    · exact ho
    · exact List.mem_append_left _ ho
  · obtain rfl := Except.ok.inj h
    have hne : o.name ≠ name' := fun heq => hdropped (congrArg some heq.symm)
    have hstays : ¬ (o.name = name' ∧ o.kind.isTable) ∧ o.kind.on ≠ some name' := by
      rw [on_of_isTable hkind]
      exact ⟨fun hno => hne hno.1, by simp⟩
    exact List.mem_filter.mpr ⟨ho, decide_eq_true hstays⟩

theorem hasTable_schema {os' : List Object} (h : b.schema os = .ok os') (htable : hasTable os name = true)
    (hdropped : b.dropped ≠ some name) : hasTable os' name = true := by
  obtain ⟨o, ho, rfl, hkind⟩ := hasTable_iff.mp htable
  exact hasTable_iff.mpr ⟨o, mem_schema h ho hkind hdropped, rfl, hkind⟩

/-- What a statement leaves, when it has the schema. -/
def after (b : Stmt) (os : List Object) (db : DB R) : DB R :=
  { db with objects := os, rows := (b.clears db.objects).elim db.rows fun name => Function.update db.rows name [] }

theorem exec_ok (h : b.schema db.objects = .ok os) : exec b db = .ok (after b os db) := by
  rw [exec, h]
  rfl

/-- Rows are lost with a table that is taken away. -/
theorem rows_after (h : Tidy db) (b : Stmt) (os : List Object) (name : Name) :
    (after b os db).rows name = db.rows name ∨ b.dropped = some name ∧ (after b os db).rows name = [] := by
  show (b.clears db.objects).elim db.rows (fun name => Function.update db.rows name []) name = _ ∨ _ ∧
    (b.clears db.objects).elim db.rows (fun name => Function.update db.rows name []) name = _
  rcases hclears : b.clears db.objects with _ | cleared
  · exact .inl rfl
  · rw [Option.elim_some]
    rcases eq_or_ne name cleared with rfl | hne
    · rw [Function.update_self]
      rcases hdropped : b.dropped with _ | other
      · exact .inl (h.absent name (clears_of_dropped_none hdropped hclears)).symm
      · rcases b with ⟨ifNotExists, o⟩ | name'
        · cases hdropped
        · obtain rfl := Option.some.inj hdropped
          exact .inr ⟨congrArg some (Option.some.inj hclears), rfl⟩
    · exact .inl (Function.update_of_ne hne _ _)

theorem Tidy.after (h : Tidy db) (hschema : b.schema db.objects = .ok os) : Tidy (after b os db) := by
  have hempty : ∀ name, db.rows name = [] → (Migrate.after b os db).rows name = [] := by
    intro name hname
    rcases rows_after h b os name with hrows | ⟨-, hrows⟩
    · rw [hrows, hname]
    · exact hrows
  have hdropped : ∀ name, b.dropped = some name → (Migrate.after b os db).rows name = [] := by
    intro name hname
    rcases b with ⟨ifNotExists, o⟩ | name'
    · cases hname
    · obtain rfl := Option.some.inj hname
      exact Function.update_self _ _ _
  refine ⟨fun name habsent => ?_, fun hfive hblobs => ?_⟩
  · by_cases hname : b.dropped = some name
    · exact hdropped name hname
    · refine hempty name (h.absent name ?_)
      by_contra htable
      have hthere := hasTable_schema hschema (Bool.of_not_eq_false htable) hname
      rw [show hasTable os name = false from habsent] at hthere
      cases hthere
  · by_cases hname : b.dropped = some .fileEmbeddings
    · exact hdropped _ hname
    · exact hempty _ (h.fresh hfive fun hno => hblobs (mem_schema hschema hno rfl hname))

theorem Kept.after (h : Kept old n db) (htidy : Tidy db)
    (hdropped : b.dropped = none ∨ b.dropped = some .fileEmbeddings ∧ 5 ∉ old.applied ∧ 4 < n) :
    Kept old n (after b os db) := by
  refine ⟨fun name => ?_, h.applied⟩
  rcases rows_after htidy b os name with hrows | ⟨hname, hrows⟩
  · rw [hrows]
    exact h.rows name
  · rcases hdropped with hno | ⟨heq, hfive, hn⟩
    · rw [hname] at hno
      cases hno
    · obtain rfl := Option.some.inj (heq.symm.trans hname)
      exact .inr ⟨rfl, hrows, hfive, hn⟩

theorem Kept.refl : Kept db n db := ⟨fun _ => .inl rfl, fun _ => id⟩

end Rows

/-! ### A file -/

section Files
variable {db old : DB R} {k n : ℕ}

/-- Before a statement of a file. -/
structure Running (old : DB R) (n k i : ℕ) (db : DB R) : Prop where
  objects : Before k i db.objects
  applied : db.applied = (List.range k).map (· + 1)
  tidy : Tidy db
  kept : Kept old n db

theorem mem_applied {v : ℕ} : v ∈ (List.range k).map (· + 1) ↔ 0 < v ∧ v ≤ k := by
  simp only [List.mem_map, List.mem_range]
  constructor
  · rintro ⟨i, hi, rfl⟩
    omega
  · intro hv
    exact ⟨v - 1, by omega, by omega⟩

theorem resumable_exec (hk : k < migrations.length) (hn : k < n) : Resumable exec (statements k) (Running old n k) := by
  have hschema := resumable_statements hk
  refine ⟨fun i hi db h => ?_, fun i hi db h => ⟨hschema.again i hi _ h.objects, h.applied, h.tidy, h.kept⟩⟩
  obtain ⟨os, hos, hbefore⟩ := hschema.step i hi _ h.objects
  refine ⟨_, exec_ok hos, hbefore, h.applied, h.tidy.after hos, h.kept.after h.tidy ?_⟩
  refine (dropped_statements hk (List.getElem_mem hi)).imp_right fun hdropped => ⟨hdropped.1, fun hfive => ?_, ?_⟩
  · have hle := (mem_applied.mp (h.applied ▸ h.kept.applied 5 hfive)).2
    have hfour := hdropped.2
    omega
  · have hfour := hdropped.2
    omega

/-- The index between two files. -/
structure Between (old : DB R) (n : ℕ) (done : ℕ) (db : DB R) : Prop where
  stage : ∃ k j, done ≤ k ∧ Within n k j ∧ At k j db
  tidy : Tidy db
  kept : Kept old n db

theorem Running.reached (hn : k < n) (h : Running old n k 0 db) : Reached n db := by
  obtain ⟨j, -, hj, -, hos⟩ := h.objects
  exact ⟨.inr ⟨k, j, .inl ⟨hn, hj⟩, hos, h.applied⟩, h.tidy⟩

theorem Between.reached {done : ℕ} (h : Between old n done db) : Reached n db := by
  obtain ⟨k, j, -, hwithin, hat⟩ := h.stage
  exact ⟨.inr ⟨k, j, hwithin, hat⟩, h.tidy⟩

/-- The body of the loop. -/
theorem completes_applyFile {file : File} {i : ℕ} (hfile : migrations[i]? = some file) (hn : i < n) :
    Completes (applyFile file (i + 1)) (Between old n i) (fun _ => Between old n (i + 1))
      fun db => Reached n db ∧ Kept old n db := by
  have hi : i < migrations.length := (List.getElem?_eq_some_iff.mp hfile).1
  have hstatements : statements i = file.statements := by
    rw [statements, hfile]
    rfl
  refine Completes.andThen (Q := fun applied db => applied = db.applied.count (i + 1) ∧ Between old n i db)
    (Completes.wrap (Completes.stmt (fun db h => ⟨h.reached, h.kept⟩) fun db h => ⟨_, db, rfl, rfl, h⟩)) fun applied => ?_
  by_cases hpos : applied > 0
  · rw [if_pos hpos]
    refine Completes.ret fun db h => ?_
    obtain ⟨rfl, hbetween⟩ := h
    obtain ⟨k, j, -, hwithin, hat⟩ := hbetween.stage
    have hmem := List.count_pos_iff.mp hpos
    rw [hat.applied, mem_applied] at hmem
    exact ⟨⟨k, j, hmem.2, hwithin, hat⟩, hbetween.tidy, hbetween.kept⟩
  · rw [if_neg hpos]
    have hscript : Completes (script exec Error.driver (statements i)) (Running old n i 0)
        (fun _ => Running old n i (statements i).length) (Running old n i 0) := (resumable_exec hi hn).completes
    rw [hstatements] at hscript
    refine Completes.andThen (Completes.wrap (hscript.mono (fun db h => ?_) (fun _ _ => id) fun db h => ⟨h.reached hn, h.kept⟩))
      fun _ => Completes.wrap (Completes.stmt (fun db h => ?_) fun db h => ?_)
    -- The file is the first that is not recorded.
    · obtain ⟨rfl, hbetween⟩ := h
      obtain ⟨k, j, hik, hwithin, hat⟩ := hbetween.stage
      have hno : i + 1 ∉ db.applied := fun hmem => hpos (List.count_pos_iff.mpr hmem)
      rw [hat.applied, mem_applied] at hno
      obtain rfl : k = i := by omega
      obtain ⟨-, hj⟩ := hwithin.resolve_right fun h => absurd h.1 (by omega)
      exact ⟨⟨j, Nat.zero_le j, hj, fun _ => .inl rfl, hat.objects⟩, hat.applied, hbetween.tidy, hbetween.kept⟩
    · have hbegun : Running old n i 0 db := (hstatements ▸ resumable_exec hi hn).again _ le_rfl _ h
      exact ⟨hbegun.reached hn, hbegun.kept⟩
    · have hno : i + 1 ∉ db.applied := by
        rw [h.applied, mem_applied]
        omega
      have happlied : db.applied ++ [i + 1] = (List.range (i + 1)).map (· + 1) := by
        rw [h.applied, List.range_succ, List.map_append, List.map_singleton]
      obtain ⟨j, hge, hle, -, hobjects⟩ := h.objects
      obtain rfl : j = file.statements.length := by
        rw [hstatements] at hle
        omega
      have hwithin : Within n (i + 1) 0 := (Nat.succ_le_of_lt hn).lt_or_eq.imp (fun hlt => ⟨hlt, Nat.zero_le _⟩) fun heq => ⟨heq, rfl⟩
      refine ⟨(), _, if_neg hno, ⟨i + 1, 0, le_rfl, hwithin, ?_, happlied⟩, ⟨h.tidy.absent, fun hfive => ?_⟩, h.kept.rows,
        fun v hv => List.mem_append_left _ (h.kept.applied v hv)⟩
      · rw [← hstatements, List.take_length] at hobjects
        rw [List.take_zero]
        exact hobjects
      · exact h.tidy.fresh fun hmem => hfive (List.mem_append_left _ hmem)

/-! ### All files -/

theorem versionOf_migrations {i : ℕ} {file : File} (h : migrations[i]? = some file) :
    ".sql".toList <:+ file.name.toList ∧ versionOf file.name = some (i + 1) := by
  have hall : ∀ i < 6, migrations[i]?.all fun file =>
      ".sql".toList <:+ file.name.toList ∧ versionOf file.name = some (i + 1) := by decide
  have hi := hall i (List.getElem?_eq_some_iff.mp h).1
  rw [h, Option.all_some] at hi
  exact of_decide_eq_true hi

theorem sorted_release (n : ℕ) : (release n).insertionSort (fun f g => f.name ≤ g.name) = release n := by
  have hsorted : migrations.Pairwise fun f g => f.name ≤ g.name := by decide
  exact (hsorted.sublist (List.take_sublist _ _)).insertionSort_eq

theorem getElem?_release {i : ℕ} (h : i < n) : (release n)[i]? = migrations[i]? := by
  rw [release, List.getElem?_take, if_pos h]

/-- The table of the versions is made, if it is not there. -/
theorem completes_bootstrap (hn : n ≤ migrations.length) :
    Completes (script exec Error.driver [.create true ⟨.schemaMigrations, .table⟩])
      (fun db => Reached n db ∧ Kept old n db) (fun _ => Between old n 0) fun db => Reached n db ∧ Kept old n db := by
  have hhas : ∀ k ≤ 6, ∀ j ≤ (statements k).length,
      (play ((statements k).take j) (schemaAt k)).any (Object.alike ⟨.schemaMigrations, .table⟩) = true := by decide +kernel
  refine Completes.andThen (Completes.stmt (fun _ => id) fun db h => ?_) fun _ =>
    Completes.ret (Q := fun _ => Between old n 0) fun _ => id
  obtain ⟨⟨hstage, htidy⟩, hkept⟩ := h
  obtain ⟨os, hos, k, j, hwithin, hobjects, happlied⟩ : ∃ os,
      (Stmt.create true ⟨.schemaMigrations, .table⟩).schema db.objects = .ok os ∧
        ∃ k j, Within n k j ∧ os = play ((statements k).take j) (schemaAt k) ∧ db.applied = (List.range k).map (· + 1) := by
    rcases hstage with ⟨hobjects, happlied⟩ | ⟨k, j, hwithin, hat⟩
    · rw [hobjects, happlied]
      exact ⟨_, rfl, 0, 0, (Nat.eq_zero_or_pos n).symm.imp (fun hpos => ⟨hpos, Nat.zero_le _⟩) fun hzero => ⟨hzero.symm, rfl⟩,
        rfl, rfl⟩
    · refine ⟨db.objects, ?_, k, j, hwithin, hat.objects, hat.applied⟩
      have hk : k ≤ 6 ∧ j ≤ (statements k).length := by
        have hlength : migrations.length = 6 := rfl
        rcases hwithin with ⟨hk, hj⟩ | ⟨rfl, rfl⟩
        · exact ⟨by omega, hj⟩
        · exact ⟨by omega, Nat.zero_le _⟩
      rw [Stmt.schema, if_pos (hat.objects ▸ hhas k hk.1 j hk.2), if_pos rfl]
  refine ⟨(), after _ os db, by rw [exec_ok hos]; rfl, ⟨k, j, Nat.zero_le k, hwithin, hobjects, happlied⟩, htidy.after hos,
    hkept.after htidy (.inl rfl)⟩

/-- **Opening an index** comes to its end, or leaves what can be opened again. -/
theorem completes_openDB (hn : n ≤ migrations.length) :
    Completes (openDB (release n)) (fun db => Reached n db ∧ Kept old n db)
      (fun _ db => At n 0 db ∧ Tidy db ∧ Kept old n db) fun db => Reached n db ∧ Kept old n db := by
  have hpragma : ∀ format : String, Completes (errorf format [] pragma) (fun db => Reached n db ∧ Kept old n db)
      (fun _ db => Reached n db ∧ Kept old n db) fun db => Reached n db ∧ Kept old n db := fun _ =>
    Completes.wrap (Completes.stmt (fun _ => id) fun db h => ⟨(), db, rfl, h⟩)
  refine (hpragma _).andThen fun _ => (hpragma _).andThen fun _ => (hpragma _).andThen fun _ => (hpragma _).andThen fun _ =>
    (hpragma _).andThen fun _ => (Completes.wrap (completes_bootstrap hn)).andThen fun _ => ?_
  rw [sorted_release]
  have hlength : (release n).length = n := by
    rw [release, List.length_take]
    omega
  refine (Completes.each (fun done => Between old n done.length) fun done file rest hl => ?_).mono (fun _ => id) (fun _ db h => ?_)
    fun _ => id
  · have hlt : done.length < n := by
      rw [← hlength, hl, List.length_append, List.length_cons]
      omega
    have hfile : migrations[done.length]? = some file := by
      rw [← getElem?_release hlt, hl]
      simp
    obtain ⟨hsql, hversion⟩ := versionOf_migrations hfile
    rw [if_pos hsql, hversion, Option.elim_some, List.length_append, List.length_singleton]
    exact completes_applyFile hfile hlt
  · obtain ⟨k, j, hk, hwithin, hat⟩ := h.stage
    rw [hlength] at hk
    obtain ⟨rfl, rfl⟩ := hwithin.resolve_left fun h => by omega
    exact ⟨hat, h.tidy, h.kept⟩

end Files

/-! ### All runs -/

section Runs
variable {s s' : State R} {a : Action} {tr : List (State R × Action)} {db : DB R} {m n : ℕ}

theorem Reached.mono (h : Reached m db) (hmn : m ≤ n) : Reached n db := by
  refine ⟨h.stage.imp_right ?_, h.tidy⟩
  rintro ⟨k, j, hwithin, hat⟩
  refine ⟨k, j, ?_, hat⟩
  rcases hwithin with ⟨hk, hj⟩ | ⟨rfl, rfl⟩
  · exact .inl ⟨by omega, hj⟩
  · exact hmn.lt_or_eq.imp (fun hlt => ⟨hlt, Nat.zero_le _⟩) fun heq => ⟨heq, rfl⟩

theorem reached_blank : Reached n (blank : DB R) := ⟨.inl ⟨rfl, rfl⟩, fun _ _ => rfl, fun _ _ => rfl⟩

/-- What carries from step to step. -/
structure Inv (s : State R) : Prop where
  newest : s.newest ≤ migrations.length
  reached : Reached s.newest s.db
  durable : ∀ db, s.durable db → Reached s.newest db
  ready : s.ready → At s.newest 0 s.db

theorem inv_start : Inv (start : State R) :=
  ⟨Nat.zero_le _, reached_blank, fun _ hdb => hdb ▸ reached_blank, False.elim⟩

theorem Reached.opened (h : Reached n s.db) (hn : n ≤ migrations.length) (faults : List Bool) :
    Reached n (s.opened n faults) ∧ Kept s.db n (s.opened n faults) ∧
      ((openDB (release n) ⟨s.db, faults⟩).1 = .ok () → At n 0 (s.opened n faults)) := by
  have hopen := (completes_openDB hn s.db ⟨h, Kept.refl⟩).1
  rcases hrun : openDB (release n) ⟨s.db, faults⟩ with ⟨e | a, c⟩
  · have herror := hopen.error hrun
    rw [State.opened, hrun]
    exact ⟨herror.1, herror.2, fun hno => by cases hno⟩
  · have hok := hopen.ok hrun
    rw [State.opened, hrun]
    exact ⟨⟨.inr ⟨n, 0, .inr ⟨rfl, rfl⟩, hok.1⟩, hok.2.1⟩, hok.2.2, fun _ => hok.1⟩

/-- A daemon that is ready changes rows of tables that are to stay. -/
theorem Tidy.use (h : Tidy db) (hn : n ≤ migrations.length) (hat : At n 0 db) {rows : Name → List R}
    (hrows : ∀ name, hasTable db.objects name = false → rows name = db.rows name) : Tidy { db with rows := rows } := by
  have hall : ∀ n ≤ 6, 5 ≤ n ∨ blobs ∈ schemaAt n ∨ hasTable (schemaAt n) .fileEmbeddings = false := by decide +kernel
  have hobjects : db.objects = schemaAt n := hat.objects
  refine ⟨fun name habsent => (hrows name habsent).trans (h.absent name habsent), fun hfive hblobs => ?_⟩
  rcases hall n hn with hle | hthere | habsent
  · refine absurd ?_ hfive
    show 5 ∈ db.applied
    rw [hat.applied, mem_applied]
    omega
  · exact absurd (hobjects ▸ hthere) hblobs
  · rw [← hobjects] at habsent
    exact (hrows _ habsent).trans (h.absent _ habsent)

theorem Inv.step (h : Inv s) (hstep : Step s a s') : Inv s' := by
  rcases hstep with @⟨n, faults, hnewer, hn⟩ | @⟨rows, hready, hrows⟩ | - | - | @⟨db, hdb⟩
  case launch =>
    have hreached := h.reached.mono hnewer
    refine ⟨hn, (hreached.opened hn faults).1, fun db hdb => ?_, (hreached.opened hn faults).2.2⟩
    rcases hdb with hdb | ⟨faults', rfl⟩
    · exact (h.durable db hdb).mono hnewer
    · exact (hreached.opened hn faults').1
  case use =>
    have hat := h.ready hready
    have hused : Reached s.newest { s.db with rows := rows } :=
      ⟨.inr ⟨s.newest, 0, .inr ⟨rfl, rfl⟩, hat.objects, hat.applied⟩, h.reached.tidy.use h.newest hat hrows⟩
    refine ⟨h.newest, hused, fun db hdb => ?_, fun _ => ⟨hat.objects, hat.applied⟩⟩
    rcases hdb with hdb | rfl
    · exact h.durable db hdb
    · exact hused
  case checkpoint => exact ⟨h.newest, h.reached, fun db hdb => hdb ▸ h.reached, h.ready⟩
  case stop => exact ⟨h.newest, h.reached, h.durable, False.elim⟩
  case powerCut => exact ⟨h.newest, h.durable db hdb, fun db' hdb' => hdb' ▸ h.durable db hdb, False.elim⟩

theorem Inv.opens (h : Inv s) (hnewer : s.newest ≤ n) (hn : n ≤ migrations.length) (faults : List Bool) :
    Opens s n faults := by
  have hreached := h.reached.mono hnewer
  obtain ⟨-, hkept, hready⟩ := hreached.opened hn faults
  refine ⟨fun hok => ?_, ?_, fun name => ?_⟩
  · have hat := hready hok
    obtain ⟨_, _, hrun, hfresh, -⟩ := (completes_openDB hn).runs (s := (blank : DB R)) ⟨reached_blank, Kept.refl⟩
    rw [hrun]
    exact ⟨hat.objects.trans hfresh.objects.symm, hat.applied⟩
  · obtain ⟨_, _, hrun, -⟩ := (completes_openDB hn).runs ⟨hreached, Kept.refl⟩
    rw [hrun]
  · rcases hkept.rows name with hsame | ⟨rfl, hnone, hfive, hfour⟩
    · exact .inl hsame
    · by_cases hblobs : blobs ∈ s.db.objects
      · exact .inr ⟨rfl, hblobs, hfour⟩
      · exact .inl (hnone.trans (h.reached.tidy.fresh hfive hblobs).symm)

/-- **An index can always be opened.** In every run in which daemons of the same or ever newer versions are started, stopped
at any statement or cut off from power, and use the index in between: if `Open` succeeds, the schema is that of a new index;
it succeeds unless a statement fails for reasons of its own; and it keeps all rows but those of the old table of
embeddings. -/
theorem migrates_of_run (hrun : Lib.Steps.Runs Step (start : State R) tr s) :
    ∀ e ∈ tr, ∀ n faults, e.2 = .open n faults → Opens e.1 n faults := by
  intro e he n faults hopen
  obtain ⟨hinv, s', hstep⟩ := hrun.step_from (I := Inv)
    (fun tr' t _ hrun' => hrun'.invariant Inv meets_any inv_start fun _ _ _ h _ hstep => h.step hstep) he
  rw [hopen] at hstep
  rcases hstep with ⟨hnewer, hn⟩
  exact hinv.opens hnewer hn faults

/-- The first daemon is stopped when the old table of embeddings is taken away, and the new one is not there. -/
theorem migrates_of_run_stopped : ∃ s : State Unit, (∃ tr, Lib.Steps.Runs Step start tr s) ∧ s.db.applied = [1, 2, 3, 4] ∧
    hasTable s.db.objects .fileEmbeddings = false ∧ Opens s 6 [] := by
  have h₁ := Lib.Steps.Runs.nil.snoc
    (@Step.launch Unit start 6 (List.replicate 37 false ++ [true]) (by decide) (by decide))
  refine ⟨_, ⟨_, h₁⟩, by decide +kernel, by decide +kernel, ?_⟩
  exact migrates_of_run (h₁.snoc (@Step.launch _ _ 6 [] le_rfl le_rfl)) _
    (List.mem_append_right _ (List.mem_singleton_self _)) 6 [] rfl

end Runs

end Tilbo.Index.Migrate
