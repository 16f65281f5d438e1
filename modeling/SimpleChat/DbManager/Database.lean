import SimpleChat.Common.Message
import SimpleChat.DbManager.CreateTable
import SimpleChat.Transition.Run

/-!
# The table of `DbManager`

`DbManager` creates its table whenever the server starts, and inserts a row for every message. A start
on a table that exists is an error of SQLite, which `CreateTable` takes for success by the text of its
message.

SQLite is a parameter: what `sqlite3_exec` does to a database, and the tables that are in it. What is
assumed of it is stated for the texts that it reads as a creation or as an insertion of literals, and
for a database that no other program writes to.

`err_msg` is not initialised. `sqlite3_exec` leaves it so where it returns at once, as for a handle
that was not opened; what `CreateTable` and `InsertRow` do then is undefined.

## Main definitions

* `Sqlite.ExecResult`, `Sqlite.Engine`: the answers of `sqlite3_exec`, and SQLite
* `Sqlite.Engine.Sound`: what it means that a statement succeeds or fails
* `Sqlite.Engine.Working`: no statement fails for a reason of its own
* `createTable`, `insertRow`: the calls of `DbWrapper`
* `DbManager.serve`, `DbManager.after`: the starts and the messages
* `DbManager.accepted`: the messages whose `InsertRow` answered `RET_OK`
* `Sqlite.memory`: an engine that keeps its tables in memory
* `Sqlite.Table.transcript`: who said what when, read from the table

## Main results

* `DbManager.table_is_archive`: the table gains a row for each accepted message, and nothing else
* `DbManager.every_message_kept`: where no statement fails for a reason of its own, every call is
  answered `RET_OK` and every message gets its row
* `DbManager.transcript_eq`: the messages are read back from the table
-/

namespace SimpleChat

open Containers Std Sqlite Transition

namespace Sqlite

/-- A table: whether it is plain, which means that its columns are of type `TEXT` and that there are no
constraints but `NOT NULL` and no triggers, its columns in the order of their declaration, and the
texts of its rows, in the order of their row ids. -/
structure Table where
  plain : Bool
  columns : List Bytes
  rows : List (List Bytes)
  deriving DecidableEq, Repr

/-- The value that an insertion has for a column. -/
def Insert.value (ins : Insert) (c : Bytes) : Option Bytes :=
  (ins.row.find? fun e => upper e.1 = upper c).map Prod.snd

/-- The row that an insertion adds to a table, if the table is plain and the insertion has one value for
each column of it and none for another. -/
def Insert.fill (ins : Insert) (t : Table) : Option (List Bytes) :=
  if t.plain = true ∧ (ins.row.map fun e => upper e.1).Nodup ∧
      ∀ e ∈ ins.row, upper e.1 ∈ t.columns.map upper then
    t.columns.mapM ins.value
  else none

/-- What `sqlite3_exec` leaves in `err_msg` on an error: nothing at all, a null pointer if there is no
memory for the message, or the message. -/
inductive ErrMsg where
  | unset
  | null
  | text (errMsg : Bytes)
  deriving DecidableEq, Repr

/-- What `sqlite3_exec` answers. -/
inductive ExecResult where
  | ok
  | error (errMsg : ErrMsg)
  deriving DecidableEq, Repr

/-- SQLite: the words that are no names, `sqlite3_exec`, which may change the database, and the tables
of a database, by their names in upper case. -/
structure Engine (δ : Type) where
  reserved : Bytes → Bool
  exec : Bytes → δ → ExecResult × δ
  tables : δ → Bytes → Option Table

namespace Engine

variable {δ : Type}

/-- What success and failure of a statement mean: one that fails changes nothing, a creation that
succeeds makes an empty plain table where there was none, and an insertion that succeeds is one into a
table that is there, to whose end it adds its row. -/
structure Sound (E : Engine δ) : Prop where
  error_unchanged : ∀ {sql db errMsg}, (E.exec sql db).1 = .error errMsg →
    E.tables (E.exec sql db).2 = E.tables db
  create_ok : ∀ {sql db c}, readCreate E.reserved sql = some c → (E.exec sql db).1 = .ok →
    E.tables db (upper c.table) = none ∧
      E.tables (E.exec sql db).2 =
        Function.update (E.tables db) (upper c.table) (some ⟨true, c.columns, []⟩)
  insert_ok : ∀ {sql db ins}, readSql E.reserved sql = some ins → ins.table.schema = none →
    (E.exec sql db).1 = .ok → (E.tables db (upper ins.table.table)).isSome = true ∧
      ∀ {t row}, E.tables db (upper ins.table.table) = some t → ins.fill t = some row →
        E.tables (E.exec sql db).2 = Function.update (E.tables db) (upper ins.table.table)
          (some { t with rows := t.rows ++ [row] })

/-- The handle was opened, and no statement fails for a reason of its own: a creation fails only where
the table is there, with a message that says so, and no insertion of a whole row into a plain table
fails. -/
structure Working (E : Engine δ) : Prop where
  create : ∀ {sql db c}, readCreate E.reserved sql = some c → E.tables db (upper c.table) = none →
    (E.exec sql db).1 = .ok
  create_again : ∀ {sql db c t}, readCreate E.reserved sql = some c →
    E.tables db (upper c.table) = some t → t.plain = true →
    (E.exec sql db).1 = .error (.text (bytes "table " ++ c.table ++ bytes " already exists"))
  insert : ∀ {sql db ins t row}, readSql E.reserved sql = some ins → ins.table.schema = none →
    E.tables db (upper ins.table.table) = some t → ins.fill t = some row →
    (E.exec sql db).1 = .ok

end Engine

/-! ## Tables in memory -/

/-- A text is not read both as a creation and as an insertion. -/
theorem readCreate_of_readSql {reserved : Bytes → Bool} {sql : Bytes} {ins : Insert}
    (h : readSql reserved sql = some ins) : readCreate reserved sql = none := by
  by_contra hne
  obtain ⟨c, hc⟩ := Option.ne_none_iff_exists'.mp hne
  simp only [readSql, readInsert, bind, Option.bind_eq_some_iff] at h
  simp only [readCreate, bind, Option.bind_eq_some_iff] at hc
  obtain ⟨ts, hinsert, -⟩ := h
  obtain ⟨ts', hcreate, -⟩ := hc
  obtain ⟨w, hw, hts⟩ := readKeyword_eq_some.mp hinsert
  obtain ⟨w', hw', hts'⟩ := readKeyword_eq_some.mp hcreate
  obtain ⟨rfl, -⟩ : w = w' ∧ ts = ts' := by simpa using hts.symm.trans hts'
  exact absurd (hw.symm.trans hw') (by decide)

/-- The table after an insertion, if there is one that it fits. -/
def Insert.into (ins : Insert) (db : Bytes → Option Table) : Option Table := do
  let t ← db (upper ins.table.table)
  let row ← ins.fill t
  if ins.table.schema = none then some { t with rows := t.rows ++ [row] } else none

/-- An engine that keeps its tables in memory and knows creations and insertions only. -/
def memory : Engine (Bytes → Option Table) where
  reserved _ := false
  exec sql db :=
    match readCreate (fun _ => false) sql, readSql (fun _ => false) sql with
    | some c, _ =>
      if (db (upper c.table)).isSome then
        (.error (.text (bytes "table " ++ c.table ++ bytes " already exists")), db)
      else (.ok, Function.update db (upper c.table) (some ⟨true, c.columns, []⟩))
    | none, some ins =>
      match ins.into db with
      | some t => (.ok, Function.update db (upper ins.table.table) (some t))
      | none => (.error (.text (bytes "SQL logic error")), db)
    | none, none => (.error (.text (bytes "syntax error")), db)
  tables db := db

theorem memory_create {sql : Bytes} {db : Bytes → Option Table} {c : Create}
    (h : readCreate memory.reserved sql = some c) :
    memory.exec sql db =
      if (db (upper c.table)).isSome then
        (.error (.text (bytes "table " ++ c.table ++ bytes " already exists")), db)
      else (.ok, Function.update db (upper c.table) (some ⟨true, c.columns, []⟩)) := by
  have h : readCreate (fun _ => false) sql = some c := h
  simp only [memory, h]

theorem memory_insert {sql : Bytes} {db : Bytes → Option Table} {ins : Insert}
    (h : readSql memory.reserved sql = some ins) :
    memory.exec sql db =
      match ins.into db with
      | some t => (.ok, Function.update db (upper ins.table.table) (some t))
      | none => (.error (.text (bytes "SQL logic error")), db) := by
  have hcreate : readCreate (fun _ => false) sql = none := readCreate_of_readSql h
  have h : readSql (fun _ => false) sql = some ins := h
  simp only [memory, h, hcreate]

theorem memory_other {sql : Bytes} {db : Bytes → Option Table}
    (hcreate : readCreate memory.reserved sql = none) (hinsert : readSql memory.reserved sql = none) :
    memory.exec sql db = (.error (.text (bytes "syntax error")), db) := by
  have hcreate : readCreate (fun _ => false) sql = none := hcreate
  have hinsert : readSql (fun _ => false) sql = none := hinsert
  simp only [memory, hcreate, hinsert]

@[simp] theorem memory_tables (db : Bytes → Option Table) : memory.tables db = db := rfl

theorem memory_sound : memory.Sound where
  error_unchanged {sql db errMsg} herror := by
    rw [memory_tables, memory_tables]
    cases hcreate : readCreate memory.reserved sql with
    | some c =>
      rw [memory_create hcreate] at herror ⊢
      split at herror
      · next hsome => rw [if_pos hsome]
      · cases herror
    | none =>
      cases hinsert : readSql memory.reserved sql with
      | some ins =>
        rw [memory_insert hinsert] at herror ⊢
        cases hinto : ins.into db with
        | none => rfl
        | some t =>
          rw [hinto] at herror
          cases herror
      | none => rw [memory_other hcreate hinsert]
  create_ok {sql db c} h hok := by
    rw [memory_create h] at hok ⊢
    rw [memory_tables, memory_tables]
    split at hok
    · cases hok
    · next hnone =>
      rw [if_neg hnone]
      exact ⟨Option.not_isSome_iff_eq_none.mp hnone, rfl⟩
  insert_ok {sql db ins} h hschema hok := by
    rw [memory_insert h] at hok ⊢
    rw [memory_tables, memory_tables]
    cases hinto : ins.into db with
    | none =>
      rw [hinto] at hok
      cases hok
    | some t' =>
      simp only [Insert.into, bind, Option.bind_eq_some_iff, hschema, if_true,
        Option.some.injEq] at hinto
      obtain ⟨t₀, ht₀, row₀, hrow₀, rfl⟩ := hinto
      refine ⟨by rw [ht₀]; rfl, fun {t row} ht hrow => ?_⟩
      obtain rfl : t₀ = t := Option.some.inj (ht₀.symm.trans ht)
      obtain rfl : row₀ = row := Option.some.inj (hrow₀.symm.trans hrow)
      rfl

theorem memory_working : memory.Working where
  create {sql db c} h hnone := by
    rw [memory_tables] at hnone
    rw [memory_create h, if_neg (by rw [hnone]; exact Bool.false_ne_true)]
  create_again {sql db c t} h ht _ := by
    rw [memory_tables] at ht
    rw [memory_create h, if_pos (by rw [ht]; rfl)]
  insert {sql db ins t row} h hschema ht hrow := by
    rw [memory_tables] at ht
    have hinto : ins.into db = some { t with rows := t.rows ++ [row] } := by
      simp only [Insert.into, ht, hrow, hschema, bind, Option.bind_some, if_true]
    rw [memory_insert h, hinto]

end Sqlite

/-! ## The calls of `DbWrapper` -/

section DbWrapper

variable {δ : Type}

/-- `CreateTable`, which makes a string of `err_msg` on an error. -/
def createTable (E : Engine δ) (tableName : Bytes) (columnTypeMap : OrderedMap Bytes Bytes) (db : δ) :
    Option (ReturnType × δ) :=
  let (rc, db) := E.exec (createTableSql tableName columnTypeMap) db
  match rc with
  | .ok => some (.ok, db)
  | .error (.text errMsg) =>
    some (if bytes "table" <:+: errMsg ∧ bytes "already exists" <:+: errMsg then .ok else .notOk, db)
  | .error _ => none

/-- `InsertRow`, which frees `err_msg` on an error. -/
def insertRow (E : Engine δ) (tableName : Bytes) (columnValMap : OrderedMap Bytes Bytes) (db : δ) :
    Option (ReturnType × δ) :=
  let (rc, db) := E.exec (insertRowSql tableName columnValMap) db
  match rc with
  | .ok => some (.ok, db)
  | .error .unset => none
  | .error _ => some (.notOk, db)

theorem createTable_eq_some {E : Engine δ} {tableName : Bytes} {columnTypeMap : OrderedMap Bytes Bytes}
    {db db' : δ} {ret : ReturnType} (h : createTable E tableName columnTypeMap db = some (ret, db')) :
    db' = (E.exec (createTableSql tableName columnTypeMap) db).2 ∧
      ((E.exec (createTableSql tableName columnTypeMap) db).1 = .ok ∨
        ∃ errMsg, (E.exec (createTableSql tableName columnTypeMap) db).1 = .error errMsg) := by
  unfold createTable at h
  rcases hexec : E.exec (createTableSql tableName columnTypeMap) db with ⟨_ | ⟨_ | _ | errMsg⟩, _⟩ <;>
    rw [hexec] at h <;> cases h
  · exact ⟨rfl, .inl rfl⟩
  · exact ⟨rfl, .inr ⟨_, rfl⟩⟩

/-- `InsertRow` answers `RET_OK` exactly if its statement succeeds. -/
theorem insertRow_eq_some {E : Engine δ} {tableName : Bytes} {columnValMap : OrderedMap Bytes Bytes}
    {db db' : δ} {ret : ReturnType} (h : insertRow E tableName columnValMap db = some (ret, db')) :
    db' = (E.exec (insertRowSql tableName columnValMap) db).2 ∧
      ((E.exec (insertRowSql tableName columnValMap) db).1 = .ok ∧ ret = .ok ∨
        (∃ errMsg, (E.exec (insertRowSql tableName columnValMap) db).1 = .error errMsg) ∧
          ret = .notOk) := by
  unfold insertRow at h
  rcases hexec : E.exec (insertRowSql tableName columnValMap) db with ⟨_ | ⟨_ | _ | errMsg⟩, _⟩ <;>
    rw [hexec] at h <;> cases h
  · exact ⟨rfl, .inl ⟨rfl, rfl⟩⟩
  · exact ⟨rfl, .inr ⟨⟨_, rfl⟩, rfl⟩⟩
  · exact ⟨rfl, .inr ⟨⟨_, rfl⟩, rfl⟩⟩

end DbWrapper

/-! ## The calls of `DbManager` -/

/-- A `DbManager`, with SQLite and the local time. -/
structure DbManager (δ : Type) where
  tableName : Bytes
  engine : Engine δ
  localtime : Time → Tm

namespace DbManager

variable {δ : Type}

/-- The columns that the constructor of `DbManager` creates. -/
def columnTypeMap : OrderedMap Bytes Bytes :=
  .ofList [(bytes "Username", bytes "TEXT"), (bytes "Message", bytes "TEXT"),
    (bytes "Date", bytes "TEXT")]

/-- The constructor, which does not look at the answer. -/
def start (d : DbManager δ) (db : δ) : Option (ReturnType × δ) :=
  createTable d.engine d.tableName columnTypeMap db

/-- `NewMessage`, which does not look at the answer. -/
def newMessage (d : DbManager δ) (m : Message) (db : δ) : Option (ReturnType × δ) :=
  insertRow d.engine d.tableName
    (messageColumns m.user.username m.text (m.getDate d.localtime)) db

/-- The uses of the database. -/
inductive Use where
  | start
  | newMessage (m : Message)
  deriving DecidableEq

def serve (d : DbManager δ) (db : δ) : Use → Option (ReturnType × δ)
  | .start => d.start db
  | .newMessage m => d.newMessage m db

/-- The database after a use, unless what happens is undefined. -/
def after (d : DbManager δ) (db : δ) (use : Use) : Option δ := (d.serve db use).map Prod.snd

/-- The message of a use, if it is one and was answered `RET_OK`. -/
def acceptedIn (d : DbManager δ) (db : δ) : Use → Option Message
  | .start => none
  | .newMessage m => if (d.newMessage m db).map Prod.fst = some .ok then some m else none

/-- The messages whose insertions were answered `RET_OK`. -/
def accepted (d : DbManager δ) (db : δ) (uses : List Use) : List Message :=
  (trace d.after d.acceptedIn db uses).filterMap Prod.snd

/-- The columns of the table, in the order of their declaration. -/
def columns : List Bytes := [bytes "Date", bytes "Message", bytes "Username"]

/-- The row of a message. -/
def row (d : DbManager δ) (m : Message) : List Bytes :=
  [m.getDate d.localtime, m.text, m.user.username]

/-- The table, if it is there. -/
def table (d : DbManager δ) (db : δ) : Option Table := d.engine.tables db (upper d.tableName)

/-- The rows of the table, none if it is not there. -/
def rows (d : DbManager δ) (db : δ) : List (List Bytes) := (d.table db).elim [] Table.rows

/-- The table, if it is there, is the one that `CreateTable` makes, up to its rows. -/
def Fits (d : DbManager δ) (db : δ) : Prop :=
  ∀ t, d.table db = some t → t.plain = true ∧ t.columns = columns

/-- The table is there, and it is the one that `CreateTable` makes, up to its rows. -/
structure Ready (d : DbManager δ) (db : δ) : Prop where
  fits : d.Fits db
  present : (d.table db).isSome = true

/-- The names of the table and of its columns are names for SQLite. -/
structure Named (d : DbManager δ) : Prop where
  table : IsTableName d.engine.reserved d.tableName
  columns : ∀ c ∈ columns, IsIdentifier d.engine.reserved c

/-- SQLite does what it is told, no statement fails for a reason of its own, and the names of the table
and of its columns are names. -/
structure Reliable (d : DbManager δ) : Prop where
  sound : d.engine.Sound
  working : d.engine.Working
  named : d.Named

/-- The values of a message that SQLite reads back: neither quotes nor NULs. -/
def Clean (m : Message) : Prop :=
  (quote ∉ m.user.username ∧ 0 ∉ m.user.username) ∧ quote ∉ m.text ∧ 0 ∉ m.text

instance (m : Message) : Decidable (Clean m) := inferInstanceAs (Decidable (_ ∧ _))

/-- The message of a use, if it is one. -/
def Use.message : Use → Option Message
  | .start => none
  | .newMessage m => some m

/-- The use is answered `RET_OK`. -/
def Succeeds (d : DbManager δ) (db : δ) (use : Use) : Prop :=
  (d.serve db use).map Prod.fst = some .ok

/-- The values of the use can be read back. -/
def Use.Clean : Use → Prop
  | .start => True
  | .newMessage m => DbManager.Clean m

variable {d : DbManager δ}

/-! ## The statements -/

theorem toList_messageColumns (username text date : Bytes) :
    (messageColumns username text date).toList =
      [(bytes "Date", date), (bytes "Message", text), (bytes "Username", username)] := rfl

theorem toList_columnTypeMap : columnTypeMap.toList =
    [(bytes "Date", bytes "TEXT"), (bytes "Message", bytes "TEXT"),
      (bytes "Username", bytes "TEXT")] := rfl

/-- A date has digits, signs, brackets, colons and a space. -/
theorem not_mem_getDate {b : UInt8} (hdigit : ¬ Text.IsDigit b) (hmark : b ∉ bytes "[- :]")
    (localtime : Time → Tm) (m : Message) : b ∉ m.getDate localtime := by
  have hb : b ≠ 91 ∧ b ≠ 45 ∧ b ≠ 32 ∧ b ≠ 58 ∧ b ≠ 93 := by simpa [bytes] using hmark
  have hnumber := Text.not_mem_decimalInt hdigit hb.2.1
  simp [Message.getDate, bytes, hnumber, hb]

theorem clean_getDate (localtime : Time → Tm) (m : Message) :
    quote ∉ m.getDate localtime ∧ 0 ∉ m.getDate localtime :=
  ⟨not_mem_getDate (by decide) (by decide) localtime m,
    not_mem_getDate (by decide) (by decide) localtime m⟩

/-- The statement of the constructor is read as the creation of the table. -/
theorem readCreate_start (hd : d.Named) :
    readCreate d.engine.reserved (createTableSql d.tableName columnTypeMap) =
      some ⟨d.tableName, columns⟩ := by
  have hne : columnTypeMap ≠ ∅ := by
    intro h
    have hnil : columnTypeMap.toList = [] := by rw [h]; rfl
    rw [toList_columnTypeMap] at hnil
    cases hnil
  refine readCreate_createTableSql hd.table hne ?_ ?_
  · rw [toList_columnTypeMap]
    simpa [columns] using hd.columns
  · rw [toList_columnTypeMap]
    decide

/-- The statement of a message without quotes and NULs is read as the insertion of its row. -/
theorem readSql_newMessage (hd : d.Named) {m : Message} (hm : Clean m) :
    ∃ ins : Insert, readSql d.engine.reserved (insertRowSql d.tableName
        (messageColumns m.user.username m.text (m.getDate d.localtime))) = some ins ∧
      ins.table = ⟨none, d.tableName⟩ ∧
      ∀ rows, ins.fill ⟨true, columns, rows⟩ = some (d.row m) := by
  obtain ⟨hclosed, htable⟩ := readTable_of_isIdentifier hd.table.isIdentifier
  have hlist := toList_messageColumns m.user.username m.text (m.getDate d.localtime)
  have htakes : TakesRows d.engine.reserved d.tableName
      (messageColumns m.user.username m.text (m.getDate d.localtime)) := by
    refine ⟨⟨hclosed, by rw [htable]; rfl⟩, ?_, ?_⟩
    · intro h
      rw [h] at hlist
      cases hlist
    · intro c hc
      have hkeys := ExtTreeMap.mem_keys.mpr hc
      rw [← ExtTreeMap.map_fst_toList_eq_keys, hlist] at hkeys
      exact hd.columns c hkeys
  refine ⟨_, readSql_of_clean htakes ?_ htable, rfl, fun rows => ?_⟩
  · intro c v hcv
    have hmem := ExtTreeMap.mem_toList_iff_getElem?_eq_some.mpr hcv
    rw [hlist] at hmem
    have hdate := clean_getDate d.localtime m
    simp only [List.mem_cons, Prod.mk.injEq, List.not_mem_nil, or_false] at hmem
    rcases hmem with ⟨-, rfl⟩ | ⟨-, rfl⟩ | ⟨-, rfl⟩
    · exact hdate
    · exact hm.2
    · exact hm.1
  · rw [hlist]
    rfl

/-! ## What a use does to the tables -/

/-- What a use does: the table gains the row of a message that is accepted, and stays there if it is
there; the other tables stay as they are. -/
structure Effect (d : DbManager δ) (entries : List Message) (db db' : δ) : Prop where
  rows : d.rows db' = d.rows db ++ entries.map d.row
  fits : d.Fits db'
  stays : (d.table db).isSome = true → (d.table db').isSome = true
  others : ∀ n ≠ upper d.tableName, d.engine.tables db' n = d.engine.tables db n

/-- A use that leaves the tables alone. -/
theorem Effect.of_tables_eq {db db' : δ} (hfits : d.Fits db)
    (h : d.engine.tables db' = d.engine.tables db) : d.Effect [] db db' := by
  have htable : d.table db' = d.table db := congrFun h _
  refine ⟨?_, ?_, ?_, fun n _ => congrFun h n⟩
  · rw [DbManager.rows, htable, List.map_nil, List.append_nil, DbManager.rows]
  · rwa [Fits, htable]
  · rw [htable]
    exact id

/-- A use that adds the rows of messages to the table. -/
theorem Effect.of_update {db db' : δ} {ms : List Message}
    (h : d.engine.tables db' = Function.update (d.engine.tables db) (upper d.tableName)
      (some ⟨true, columns, d.rows db ++ ms.map d.row⟩)) : d.Effect ms db db' := by
  have htable : d.table db' = some ⟨true, columns, d.rows db ++ ms.map d.row⟩ := by
    rw [table, h]
    exact Function.update_self ..
  refine ⟨?_, ?_, fun _ => by rw [htable]; rfl, fun n hn => ?_⟩
  · rw [DbManager.rows, htable]
    rfl
  · intro t ht
    rw [htable] at ht
    cases ht
    exact ⟨rfl, rfl⟩
  · rw [h]
    exact Function.update_of_ne hn _ _

theorem effect_start (hs : d.engine.Sound) (hd : d.Named) {db db' : δ} {ret : ReturnType}
    (hfits : d.Fits db) (h : d.start db = some (ret, db')) : d.Effect [] db db' := by
  obtain ⟨rfl, hok | ⟨errMsg, herror⟩⟩ := createTable_eq_some h
  · obtain ⟨hnone, htables⟩ := hs.create_ok (readCreate_start hd) hok
    have hrows : d.rows db = [] := by
      rw [rows, table, hnone]
      rfl
    refine .of_update (htables.trans ?_)
    rw [hrows]
    rfl
  · exact .of_tables_eq hfits (hs.error_unchanged herror)

theorem effect_newMessage (hs : d.engine.Sound) (hd : d.Named) {m : Message} (hm : Clean m)
    {db db' : δ} {ret : ReturnType} (hfits : d.Fits db) (h : d.newMessage m db = some (ret, db')) :
    d.Effect (d.acceptedIn db (.newMessage m)).toList db db' := by
  rw [acceptedIn, h, Option.map_some]
  obtain ⟨ins, hread, htablename, hfill⟩ := readSql_newMessage hd hm
  obtain ⟨rfl, ⟨hok, rfl⟩ | ⟨⟨errMsg, herror⟩, rfl⟩⟩ := insertRow_eq_some h
  · obtain ⟨hsome, hgains⟩ := hs.insert_ok hread (by rw [htablename]) hok
    rw [htablename] at hsome hgains
    obtain ⟨t, ht⟩ := Option.isSome_iff_exists.mp hsome
    obtain ⟨plain, cs, rs⟩ := t
    obtain ⟨rfl, rfl⟩ : plain = true ∧ cs = columns := hfits _ ht
    have hrows : d.rows db = rs := by
      rw [rows, table, ht]
      rfl
    refine .of_update ((hgains ht (hfill rs)).trans ?_)
    rw [hrows]
    rfl
  · exact .of_tables_eq hfits (hs.error_unchanged herror)

/-- The effect of a use of values that can be read back. -/
theorem effect_after (hs : d.engine.Sound) (hd : d.Named) {use : Use} (hclean : use.Clean)
    {db db' : δ} (hfits : d.Fits db) (h : d.after db use = some db') :
    d.Effect (d.acceptedIn db use).toList db db' := by
  obtain ⟨⟨ret, db'⟩, hserve, rfl⟩ := Option.map_eq_some_iff.mp h
  cases use with
  | start => exact effect_start hs hd hfits hserve
  | newMessage m => exact effect_newMessage hs hd hclean hfits hserve

theorem Effect.trans {ms ms' : List Message} {db db' db'' : δ} (h : d.Effect ms db db')
    (h' : d.Effect ms' db' db'') : d.Effect (ms ++ ms') db db'' where
  rows := by rw [h'.rows, h.rows, List.map_append, List.append_assoc]
  fits := h'.fits
  stays ht := h'.stays (h.stays ht)
  others n hn := (h'.others n hn).trans (h.others n hn)

/-- What is accepted was to be inserted. -/
theorem newMessage_mem_of_mem_accepted {db : δ} {uses : List Use} {m : Message}
    (hm : m ∈ d.accepted db uses) : .newMessage m ∈ uses := by
  obtain ⟨x, hx, hxm⟩ := List.mem_filterMap.mp hm
  obtain ⟨hmem, db₁, hout⟩ := exists_of_mem_trace hx
  rw [hxm] at hout
  cases huse : x.1 with
  | start =>
    rw [huse] at hout
    cases hout
  | newMessage m' =>
    rw [huse, acceptedIn] at hout
    split at hout
    · obtain rfl := Option.some.inj hout
      exact huse ▸ hmem
    · cases hout

/-- The effect of a run of uses of values that can be read back. -/
theorem effect_run (hs : d.engine.Sound) (hd : d.Named) {uses : List Use}
    (hclean : ∀ use ∈ uses, use.Clean) {db db' : δ} (hfits : d.Fits db)
    (hrun : run d.after db uses = some db') : d.Effect (d.accepted db uses) db db' := by
  refine run_history_induction (P := fun p db' => p <+: uses → d.Effect (d.accepted db p) db db')
    (fun _ => .of_tables_eq hfits rfl) ?_ hrun (List.prefix_refl uses)
  intro p db₁ use db₂ hp ih hstep hpre
  have ih := ih ((List.prefix_append p [use]).trans hpre)
  have huse : use.Clean := hclean use (hpre.subset (by simp))
  have haccepted : d.accepted db (p ++ [use]) =
      d.accepted db p ++ (d.acceptedIn db₁ use).toList := by
    rw [accepted, trace_concat hp, List.filterMap_append]
    cases d.acceptedIn db₁ use <;> simp [accepted]
  rw [haccepted]
  exact ih.trans (effect_after hs hd huse ih.fits hstep)

/-- The database of the server, in memory. -/
def userMessages : DbManager (Bytes → Option Table) where
  tableName := bytes "UserMessages"
  engine := memory
  localtime := SimpleChat.localtime 0

theorem userMessages_named : userMessages.Named := ⟨by decide, by decide⟩

theorem userMessages_fits : userMessages.Fits fun _ => none := nofun

/-- The first message finds no table, and the second start finds one. -/
def repeatedStarts : List Use :=
  [.newMessage epochMessage, .start, .newMessage epochMessage, .start]

theorem repeatedStarts_run :
    (run userMessages.after (fun _ => none) repeatedStarts).isSome = true := by decide

example : userMessages.accepted (fun _ => none) repeatedStarts = [epochMessage] := by decide

/-! ## Where no statement fails for a reason of its own -/

theorem Effect.ready {ms : List Message} {db db' : δ} (h : d.Effect ms db db') (hdb : d.Ready db) :
    d.Ready db' := ⟨h.fits, h.stays hdb.present⟩

/-- The constructor creates the table, or finds it and takes the error for success. -/
theorem start_reliable (hd : d.Reliable) {db : δ} (hfits : d.Fits db) :
    ∃ db', d.start db = some (.ok, db') ∧ d.Effect [] db db' ∧ d.Ready db' := by
  have hread := readCreate_start hd.named
  cases ht : d.table db with
  | none =>
    have hok := hd.working.create hread ht
    have hstart : d.start db =
        some (.ok, (d.engine.exec (createTableSql d.tableName columnTypeMap) db).2) := by
      rw [start, createTable]
      simp only [hok]
    have heffect := effect_start hd.sound hd.named hfits hstart
    have htables := (hd.sound.create_ok hread hok).2
    refine ⟨_, hstart, heffect, heffect.fits, ?_⟩
    rw [table, htables, Function.update_self]
    rfl
  | some t =>
    have herror := hd.working.create_again hread ht (hfits t ht).1
    have htable : bytes "table" <:+: bytes "table " ++ d.tableName ++ bytes " already exists" :=
      ⟨[], bytes " " ++ d.tableName ++ bytes " already exists", rfl⟩
    have hexists :
        bytes "already exists" <:+: bytes "table " ++ d.tableName ++ bytes " already exists" :=
      ⟨bytes "table " ++ d.tableName ++ bytes " ", [], by simp [bytes]⟩
    have hstart : d.start db =
        some (.ok, (d.engine.exec (createTableSql d.tableName columnTypeMap) db).2) := by
      rw [start, createTable]
      simp only [herror, if_pos (And.intro htable hexists)]
    have heffect := effect_start hd.sound hd.named hfits hstart
    exact ⟨_, hstart, heffect, heffect.fits, heffect.stays (by rw [ht]; rfl)⟩

/-- A message that can be read back gets its row. -/
theorem newMessage_reliable (hd : d.Reliable) {m : Message} (hm : Clean m) {db : δ}
    (hdb : d.Ready db) : ∃ db', d.newMessage m db = some (.ok, db') ∧ d.Effect [m] db db' := by
  obtain ⟨⟨plain, cs, rs⟩, ht⟩ := Option.isSome_iff_exists.mp hdb.present
  obtain ⟨rfl, rfl⟩ : plain = true ∧ cs = columns := hdb.fits _ ht
  obtain ⟨ins, hread, htablename, hfill⟩ := readSql_newMessage hd.named hm
  have hok := hd.working.insert hread (by rw [htablename]) (by rw [htablename]; exact ht) (hfill rs)
  have hnew : d.newMessage m db = some (.ok, (d.engine.exec (insertRowSql d.tableName
      (messageColumns m.user.username m.text (m.getDate d.localtime))) db).2) := by
    rw [newMessage, insertRow]
    simp only [hok]
  have heffect := effect_newMessage hd.sound hd.named hm hdb.fits hnew
  rw [acceptedIn, hnew, Option.map_some, if_pos rfl, Option.toList_some] at heffect
  exact ⟨_, hnew, heffect⟩

/-- A use is answered `RET_OK`, if it is a start or finds the table. -/
theorem serve_reliable (hd : d.Reliable) {use : Use} (hclean : use.Clean) {db : δ}
    (hfits : d.Fits db) (hready : use = .start ∨ d.Ready db) :
    ∃ db', d.serve db use = some (.ok, db') ∧ d.Effect use.message.toList db db' ∧ d.Ready db' := by
  cases use with
  | start => exact start_reliable hd hfits
  | newMessage m =>
    have hdb : d.Ready db := hready.resolve_left nofun
    obtain ⟨db', hnew, heffect⟩ := newMessage_reliable hd hclean hdb
    exact ⟨db', hnew, heffect, heffect.ready hdb⟩

/-- Once the table is there, every use is answered `RET_OK` and every message gets its row. -/
theorem run_reliable (hd : d.Reliable) {uses : List Use} (hclean : ∀ use ∈ uses, use.Clean) {db : δ}
    (hdb : d.Ready db) :
    ∃ db', run d.after db uses = some db' ∧ d.Effect (uses.filterMap Use.message) db db' ∧
      Meets d.after d.Succeeds db uses := by
  induction uses generalizing db with
  | nil => exact ⟨db, rfl, .of_tables_eq hdb.fits rfl, meets_nil⟩
  | cons use uses ih =>
    obtain ⟨huse, huses⟩ := List.forall_mem_cons.mp hclean
    obtain ⟨db₁, hserve, heffect, hdb₁⟩ := serve_reliable hd huse hdb.fits (.inr hdb)
    obtain ⟨db₂, hrun, hrest, hmeets⟩ := ih huses hdb₁
    have hstep : d.after db use = some db₁ := by rw [after, hserve, Option.map_some]
    have hmessages : (use :: uses).filterMap Use.message =
        use.message.toList ++ uses.filterMap Use.message := by
      cases use <;> rfl
    rw [hmessages]
    refine ⟨db₂, ?_, heffect.trans hrest, (meets_cons hstep).mpr ⟨?_, hmeets⟩⟩
    · rw [run, hstep]
      exact hrun
    · rw [Succeeds, hserve, Option.map_some]

/-- The messages that are inserted after one another get a row each. -/
theorem insert_all (hd : d.Reliable) {ms : List Message} (hclean : ∀ m ∈ ms, Clean m) {db : δ}
    (hdb : d.Ready db) :
    ∃ db', run d.after db (ms.map .newMessage) = some db' ∧ d.Effect ms db db' := by
  have huses : ∀ use ∈ ms.map Use.newMessage, use.Clean := List.forall_mem_map.mpr hclean
  obtain ⟨db', hrun, heffect, -⟩ := run_reliable hd huses hdb
  refine ⟨db', hrun, ?_⟩
  rwa [List.filterMap_map, show Use.message ∘ Use.newMessage = some from rfl,
    List.filterMap_some] at heffect

/-- A start, and messages that are inserted after one another. -/
theorem insert_all_start (hd : d.Reliable) {ms : List Message} (hclean : ∀ m ∈ ms, Clean m) {db : δ}
    (hfits : d.Fits db) :
    ∃ db', run d.after db (.start :: ms.map .newMessage) = some db' ∧ d.Effect ms db db' ∧
      d.Ready db' := by
  obtain ⟨db₁, hstart, heffect, hdb₁⟩ := start_reliable hd hfits
  obtain ⟨db₂, hrun, hrest⟩ := insert_all hd hclean hdb₁
  refine ⟨db₂, ?_, heffect.trans hrest, hrest.ready hdb₁⟩
  rw [run, after, serve, hstart]
  exact hrun

theorem userMessages_reliable : userMessages.Reliable :=
  ⟨memory_sound, memory_working, userMessages_named⟩

/-- A message, another start, and one more message. -/
def restarted : List Use := [.newMessage epochMessage, .start, .newMessage mayMessage]

/-- A database with an empty table. -/
def emptyTable : Bytes → Option Table :=
  Function.update (fun _ => none) (upper (bytes "UserMessages")) (some ⟨true, columns, []⟩)

theorem userMessages_ready : userMessages.Ready emptyTable where
  fits t ht := by
    have htable : userMessages.table emptyTable = some ⟨true, columns, []⟩ := by decide
    rw [htable] at ht
    cases ht
    exact ⟨rfl, rfl⟩
  present := by decide

end DbManager

/-! ## Reading the table -/

namespace Sqlite

/-- The value of a row in a column. -/
def Table.value (t : Table) (row : List Bytes) (c : Bytes) : Option Bytes :=
  ((t.columns.zip row).find? fun e => upper e.1 = upper c).map Prod.snd

/-- Who said what when, row by row, where the dates are read in UTC and January is month zero. -/
def Table.transcript (t : Table) : List (Option (Bytes × Bytes × Time)) :=
  t.rows.map fun row => do
    let username ← t.value row (bytes "Username")
    let text ← t.value row (bytes "Message")
    let date ← t.value row (bytes "Date")
    let time ← readDate 0 date
    some (username, text, time)

end Sqlite

/-- What the table tells of a message: who said what when. -/
def Message.record (m : Message) : Bytes × Bytes × Time := (m.user.username, m.text, m.msgTimestamp)

namespace DbManager

/-- The messages are read back from the table. -/
theorem transcript_eq {δ : Type} {d : DbManager δ} (hutc : d.localtime = SimpleChat.localtime 0)
    {t : Table} (hcolumns : t.columns = columns) {ms : List Message} (hrows : t.rows = ms.map d.row)
    (htime : ∀ m ∈ ms, 0 ≤ m.msgTimestamp) :
    t.transcript = ms.map fun m => some m.record := by
  have hvalue : ∀ m : Message, t.value (d.row m) (bytes "Username") = some m.user.username ∧
      t.value (d.row m) (bytes "Message") = some m.text ∧
      t.value (d.row m) (bytes "Date") = some (m.getDate d.localtime) := by
    intro m
    rw [Table.value, Table.value, Table.value, hcolumns]
    exact ⟨rfl, rfl, rfl⟩
  rw [Table.transcript, hrows, List.map_map]
  refine List.map_congr_left fun m hm => ?_
  obtain ⟨husername, htext, hdate⟩ := hvalue m
  simp only [Function.comp_apply, husername, htext, hdate, hutc, readDate_getDate (htime m hm),
    Option.bind_eq_bind, Option.bind_some, Message.record]

end DbManager

end SimpleChat
