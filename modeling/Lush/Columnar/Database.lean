import Lush.Library.Runs
import Lush.Text.Sexp

/-!
# Databases

A `Database` is a collection of named tables.  Tables in memory are volatile; persisted
tables are directories below the path of the database, and `db-catalog.lsh` keeps their
names.  How a path leads to a directory, and what `columnardb-save` and the functions that
load a table do with a directory, are parameters of this model.
-/

namespace Lush.Columnar

open Text

/-! ## Paths -/

/-- `"/"`. -/
def slash : CString := cstring [ascii '/']

/-- `"tables/"`. -/
def tablesSlash : CString := cstring (['t', 'a', 'b', 'l', 'e', 's', '/'].map ascii)

/-- `(concat "tables/" name)`. -/
def relPath (name : CString) : CString := CString.append tablesSlash name

/-- `(concat db-path "/tables/" name)`. -/
def tablePath (path name : CString) : CString :=
  CString.append path (CString.append slash (relPath name))

/-- What databases use of the system and of `columnardb-save`.  There is a place for every
path, and the place of a table depends on the place of its database.  At some places no
directory can be made.  A save replaces what is in a directory. -/
structure Storage (τ δ ℓ : Type) where
  locate : CString → ℓ
  table : ℓ → CString → ℓ
  locate_table : ∀ path name, locate (tablePath path name) = table (locate path) name
  makes : ℓ → Bool
  save : τ → Option δ → δ
  loadMem : δ → Except Fault τ
  load : δ → Except Fault τ

variable {τ δ ℓ : Type}

/-! ## The state -/

/-- The types of tables. -/
inductive TableType
  | persisted
  | volatile
deriving DecidableEq

/-- An entry of the catalog. -/
structure Entry (τ : Type) where
  type : TableType
  path : Option CString
  dt : Option τ

/-- A `Database`. -/
structure Database (τ : Type) where
  dbPath : Option CString
  catalog : CString → Option (Entry τ)
  tableNames : List CString
  dbVersion : Tree

/-- The directories of tables, and the files `db-catalog.lsh` by the place of their
database. -/
structure Disk (δ ℓ : Type) where
  dirs : ℓ → Option δ
  catalogs : ℓ → Option (List UInt8)

namespace Database

/-- A database without tables. -/
def empty (path : Option CString) : Database τ := ⟨path, fun _ => none, [], .number (ofInt 1)⟩

variable (db : Database τ)

/-- `(catalog name entry)`. -/
def set (name : CString) (entry : Option (Entry τ)) : Database τ :=
  { db with catalog := Function.update db.catalog name entry }

/-- A new entry, at the end. -/
def add (name : CString) (entry : Entry τ) : Database τ :=
  { db.set name (some entry) with tableNames := db.tableNames ++ [name] }

/-- `detach`. -/
def detach (name : CString) : Except Fault (Database τ) :=
  match db.catalog name with
  | none => .error (.error "table not found")
  | some _ => .ok { db.set name none with tableNames := db.tableNames.filter (· ≠ name) }

/-- `reload`. -/
def reload (name : CString) : Except Fault (Database τ) :=
  match db.catalog name with
  | none => .error (.error "table not found")
  | some entry =>
      if entry.type = .persisted then .ok (db.set name (some { entry with dt := none }))
      else .error (.error "can only reload persisted tables")

end Database

/-! ## The catalog -/

/-- `version`, `tables`, `persisted` and `volatile`. -/
def versionName : List UInt8 := ['v', 'e', 'r', 's', 'i', 'o', 'n'].map ascii
def tablesName : List UInt8 := ['t', 'a', 'b', 'l', 'e', 's'].map ascii
def persistedName : List UInt8 := ['p', 'e', 'r', 's', 'i', 's', 't', 'e', 'd'].map ascii
def volatileName : List UInt8 := ['v', 'o', 'l', 'a', 't', 'i', 'l', 'e'].map ascii

/-- The entry of a persisted table, in the file. -/
def entrySexp (name : CString) : Tree :=
  Tree.list [.string name.bytes, .symbol persistedName, .string (relPath name).bytes]

/-- What `save-catalog` prints. -/
def catalogSexp (version : Tree) (names : List CString) : Tree :=
  Tree.list [Tree.list [.symbol versionName, version],
    Tree.list [.symbol tablesName, Tree.list (names.map entrySexp)]]

/-- `persisted` and `volatile`. -/
def readType (name : List UInt8) : Except Fault TableType :=
  if name = persistedName then .ok .persisted
  else if name = volatileName then .ok .volatile
  else .error .unmodelled

/-- An entry that is read from the file. -/
def readEntry (dbPath : CString) (entry : Tree) : Except Fault (CString × Entry τ) := do
  let name ← Tree.car entry
  let rest ← Tree.cdr entry
  let type ← Tree.car rest
  let rest ← Tree.cdr rest
  let rel ← Tree.car rest
  match name, type, rel with
  | .string name, .symbol type, .string rel => do
      let type ← readType type
      let path := CString.append dbPath (CString.append slash (cstring rel))
      .ok (cstring name, ⟨type, some path, none⟩)
  | _, _, _ => .error .unmodelled

/-- The loop of `_db-load-catalog`. -/
def loadEntries (dbPath : CString) : Database τ → List Tree → Except Fault (Database τ)
  | db, [] => .ok db
  | db, t :: ts => do
      let entry ← readEntry dbPath t
      loadEntries dbPath (db.add entry.1 entry.2) ts

/-- `_db-load-catalog`. -/
def loadCatalog (dbPath : CString) (sexp : Tree) : Except Fault (Database τ) := do
  let ver ← Tree.valueOf versionName sexp
  let tblList ← Tree.valueOf tablesName sexp
  let db : Database τ := Database.empty (some dbPath)
  let db :=
    match ver with
    | .nil => db
    | ver => { db with dbVersion := ver }
  loadEntries dbPath db tblList.elements

/-! ## Methods -/

variable [DecidableEq ℓ] (st : Storage τ δ ℓ) (caseSensitive : Bool)

namespace Disk

variable (disk : Disk δ ℓ)

/-- `columnardb-load-mem` or `columnardb-load`. -/
def loadWith (load : δ → Except Fault τ) (path : CString) : Except Fault τ :=
  match disk.dirs (st.locate path) with
  | none => .error (.error "cannot open file")
  | some d => load d

/-- `columnardb-save`. -/
def save (dt : τ) (path : CString) : Except Fault (Disk δ ℓ) :=
  if st.makes (st.locate path) then
    let d := st.save dt (disk.dirs (st.locate path))
    .ok { disk with dirs := Function.update disk.dirs (st.locate path) (some d) }
  else .error (.error "failed to write column")

/-- `(new Database path)`. -/
def newDatabase (path : Option CString) : Except Fault (Database τ) :=
  match path with
  | none => .ok (Database.empty none)
  | some dbPath =>
      match disk.catalogs (st.locate dbPath) with
      | none => .ok (Database.empty (some dbPath))
      | some file => do
          let sexp ← readSexp caseSensitive file
          loadCatalog dbPath sexp

end Disk

/-- What is attached: a table, or the path of a directory. -/
inductive Source (τ : Type)
  | table (dt : τ)
  | path (srcPath : CString)

/-- `attach`.  A table of this name is removed first. -/
def attach (disk : Disk δ ℓ) (db : Database τ) (name : CString) (source : Source τ) :
    (Disk δ ℓ × Database τ) × Except Fault Unit :=
  let db :=
    match db.detach name with
    | .ok db => db
    | .error _ => db
  match source with
  | .table dt => ((disk, db.add name ⟨.volatile, none, some dt⟩), .ok ())
  | .path srcPath =>
      match disk.loadWith st st.loadMem srcPath with
      | .error e => ((disk, db), .error e)
      | .ok dt =>
          match db.dbPath with
          | none => ((disk, db.add name ⟨.volatile, none, some dt⟩), .ok ())
          | some dbPath =>
              match disk.save st dt (tablePath dbPath name) with
              | .error e => ((disk, db), .error e)
              | .ok disk =>
                  ((disk, db.add name ⟨.persisted, some (tablePath dbPath name), none⟩), .ok ())

/-- `table`. -/
def table (disk : Disk δ ℓ) (db : Database τ) (name : CString) :
    Except Fault (τ × Database τ) :=
  match db.catalog name with
  | none => .error (.error "table not found")
  | some entry =>
      match entry.dt, entry.path with
      | some dt, _ => .ok (dt, db)
      | none, none => .error (.error "volatile table has no cached data")
      | none, some path =>
          if entry.type = .volatile then .error (.error "volatile table has no cached data")
          else do
            let dt ← disk.loadWith st st.load path
            .ok (dt, db.set name (some { entry with dt := some dt }))

/-- `save-volatile`: the table that was saved, and where. -/
def saveVolatile (disk : Disk δ ℓ) (db : Database τ) (name : CString) (rest : Option CString) :
    Except Fault ((Disk δ ℓ × Database τ) × τ × CString) :=
  match db.catalog name with
  | none => .error (.error "table not found")
  | some entry =>
      if entry.type ≠ .volatile then .error (.error "table is not volatile")
      else
        match entry.dt with
        | none => .error (.error "volatile table has no data")
        | some dt =>
            match rest.or (db.dbPath.map fun dbPath => tablePath dbPath name) with
            | none => .error (.error "no db-path set and no path given")
            | some destPath => do
                let disk ← disk.save st dt destPath
                .ok ((disk, db.set name (some ⟨.persisted, some destPath, some dt⟩)), dt, destPath)

/-- The names of the persisted tables, in order. -/
def Database.persisted (db : Database τ) : List CString :=
  db.tableNames.filter fun name =>
    match db.catalog name with
    | some entry => entry.type = .persisted
    | none => false

/-- `save-catalog`. -/
def saveCatalog (disk : Disk δ ℓ) (db : Database τ) : Except Fault (Disk δ ℓ) :=
  match db.dbPath with
  | none => .ok disk
  | some dbPath =>
      let place := st.locate dbPath
      if st.makes place then
        let file := writeSexp (catalogSexp db.dbVersion db.persisted)
        .ok { disk with catalogs := Function.update disk.catalogs place (some file) }
      else .error (.error "cannot open file")

end Lush.Columnar
