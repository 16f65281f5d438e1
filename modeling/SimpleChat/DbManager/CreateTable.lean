import SimpleChat.DbManager.InsertRow

/-!
# Creating a table

`DbWrapper::CreateTable` splices the names and the types of columns into a statement, as `InsertRow`
does. SQLite reads it as the creation of the table, if they are names and the type is `TEXT`.

## Main definitions

* `createTableSql`: the text that `CreateTable` passes to `sqlite3_exec`
* `Sqlite.readCreate`: the table and the columns that a text creates

## Main results

* `createTableSql_eq`, `scan_createTableSql`: the statement, written out, and its tokens
* `readCreate_createTableSql`: what SQLite reads
-/

namespace SimpleChat

open Containers Std Text Sqlite

namespace Sqlite

/-- What a `CREATE TABLE` creates: a table of columns of type `TEXT` that are not `NULL`. -/
structure Create where
  table : Bytes
  columns : List Bytes
  deriving DecidableEq, Repr

section Read

variable (reserved : Bytes → Bool)

/-- A name that a table can have: names that begin with `sqlite_` are SQLite's own. -/
structure IsTableName (w : Bytes) : Prop where
  isIdentifier : IsIdentifier reserved w
  not_internal : ¬ bytes "SQLITE_" <+: upper w

instance (w : Bytes) : Decidable (IsTableName reserved w) :=
  decidable_of_iff (IsIdentifier reserved w ∧ ¬ bytes "SQLITE_" <+: upper w)
    ⟨fun ⟨h, h'⟩ => ⟨h, h'⟩, fun ⟨h, h'⟩ => ⟨h, h'⟩⟩

/-- `c₁ TEXT NOT NULL,…,cₙ TEXT NOT NULL)`. -/
def readColumns : List Token → Option (List Bytes × List Token)
  | .word c :: .word k₁ :: .word k₂ :: .word k₃ :: .symbol d :: ts =>
    if IsIdentifier reserved c ∧ upper k₁ = bytes "TEXT" ∧ upper k₂ = bytes "NOT" ∧
        upper k₃ = bytes "NULL" then
      if d = comma then (readColumns ts).map fun r => (c :: r.1, r.2)
      else if d = closeParen then some ([c], ts)
      else none
    else none
  | _ => none

/-- `CREATE TABLE table(c₁ TEXT NOT NULL,…,cₙ TEXT NOT NULL)` with distinct columns, in either case,
and nothing but semicolons after it. -/
def readCreate (sql : Bytes) : Option Create := do
  let ts ← readKeyword "CREATE" (scanner.scan (sql.takeWhile (· ≠ 0)))
  let ts ← readKeyword "TABLE" ts
  let (table, ts) ← readName reserved ts
  let ts ← readSymbol openParen ts
  let (columns, ts) ← readColumns reserved ts
  if IsTableName reserved table ∧ (columns.map upper).Nodup ∧ ∀ t ∈ ts, t = .symbol semicolon then
    some ⟨table, columns⟩
  else none

end Read

/-- The tokens of the declaration of a column. -/
def columnTokens (c type : Bytes) : List Token :=
  [.word c, .word type, .word (bytes "NOT"), .word (bytes "NULL")]

theorem readColumns_column {reserved : Bytes → Bool} {c : Bytes} (hc : IsIdentifier reserved c)
    (d : UInt8) (ts : List Token) :
    readColumns reserved (columnTokens c (bytes "TEXT") ++ .symbol d :: ts) =
      if d = comma then (readColumns reserved ts).map fun r => (c :: r.1, r.2)
      else if d = closeParen then some ([c], ts)
      else none := by
  have htext : upper (bytes "TEXT") = bytes "TEXT" := by decide
  have hnot : upper (bytes "NOT") = bytes "NOT" := by decide
  have hnull : upper (bytes "NULL") = bytes "NULL" := by decide
  exact if_pos ⟨hc, htext, hnot, hnull⟩

theorem readColumns_enclosed {reserved : Bytes → Bool} {columns : List Bytes} (hne : columns ≠ [])
    (hc : ∀ c ∈ columns, IsIdentifier reserved c) (rest : List Token) :
    readColumns reserved (enclosed (.symbol comma) (.symbol closeParen)
        (columns.map fun c => columnTokens c (bytes "TEXT")) ++ rest) = some (columns, rest) := by
  induction columns with
  | nil => exact absurd rfl hne
  | cons c columns ih =>
    have hcolumn := readColumns_column (hc c (List.mem_cons_self ..))
    cases columns with
    | nil => exact hcolumn closeParen rest
    | cons c' columns =>
      have htail := ih (List.cons_ne_nil _ _) fun x hx => hc x (List.mem_cons_of_mem _ hx)
      refine (hcolumn comma _).trans ?_
      rw [if_pos rfl]
      exact congrArg (Option.map _) htail

end Sqlite

/-- `sql`, after the loop over the columns and the `pop_back`. -/
def createTableSql (tableName : Bytes) (columnTypeMap : OrderedMap Bytes Bytes) : Bytes :=
  let sql := columnTypeMap.toList.foldl
    (fun sql it => sql ++ (it.1 ++ bytes " " ++ it.2 ++ bytes " NOT NULL" ++ [comma]))
    (bytes "CREATE TABLE " ++ tableName ++ bytes "(")
  sql.dropLast ++ [closeParen]

/-- The text of the declaration of a column. -/
def columnText (c type : Bytes) : Bytes := c ++ bytes " " ++ type ++ bytes " NOT NULL"

theorem createTableSql_eq (tableName : Bytes) {columnTypeMap : OrderedMap Bytes Bytes}
    (hne : columnTypeMap.toList ≠ []) :
    createTableSql tableName columnTypeMap =
      bytes "CREATE TABLE " ++ (tableName ++ openParen ::
        enclosed comma closeParen (columnTypeMap.toList.map fun e => columnText e.1 e.2)) := by
  have htexts : (columnTypeMap.toList.map fun e => columnText e.1 e.2) ≠ [] := by simpa using hne
  have hfold := dropLast_foldl_append comma closeParen htexts
    (bytes "CREATE TABLE " ++ tableName ++ bytes "(")
  rw [List.foldl_map] at hfold
  rw [createTableSql]
  refine hfold.trans ?_
  rw [List.append_assoc, List.append_assoc]
  rfl

/-- The declaration of a column, before a delimiter. -/
theorem scan_columnText {c type : Bytes} (hc : IsWord c) (ht : IsWord type) {d : UInt8}
    (hd : d = comma ∨ d = closeParen) (rest : Bytes) :
    scanner.scan (columnText c type ++ d :: rest) =
      columnTokens c type ++ scanner.scan (d :: rest) := by
  have htext : columnText c type ++ d :: rest =
      c ++ 32 :: (type ++ 32 :: (bytes "NOT" ++ 32 :: (bytes "NULL" ++ d :: rest))) := by
    simp only [columnText, List.append_assoc]
    rfl
  rw [htext, scan_word hc (by decide), scan_space_word ht (by decide),
    scan_space_word (by decide) (by decide), scan_space_word (by decide) (delimiter hd).1]
  rfl

section Tokens

variable {reserved : Bytes → Bool} {tableName : Bytes} {columnTypeMap : OrderedMap Bytes Bytes}

/-- The columns have names, and their types are words. -/
def NamedColumns (reserved : Bytes → Bool) (columnTypeMap : OrderedMap Bytes Bytes) : Prop :=
  ∀ e ∈ columnTypeMap.toList, IsIdentifier reserved e.1 ∧ IsWord e.2

/-- No NUL cuts the statement. -/
theorem takeWhile_createTableSql (ht : IsIdentifier reserved tableName)
    (hne : columnTypeMap.toList ≠ []) (hc : NamedColumns reserved columnTypeMap) :
    (createTableSql tableName columnTypeMap).takeWhile (· ≠ 0) =
      createTableSql tableName columnTypeMap := by
  have hword : ∀ w : Bytes, IsWord w → (0 : UInt8) ∉ w := by
    intro w hw h0
    have hzero : isIdChar 0 = true := hw.isIdChar 0 h0
    cases hzero
  have hcreate : (0 : UInt8) ∉ bytes "CREATE TABLE " := by decide
  have hspace : (0 : UInt8) ∉ bytes " " := by decide
  have hnotNull : (0 : UInt8) ∉ bytes " NOT NULL" := by decide
  apply List.takeWhile_eq_self_iff.mpr
  intro b hb
  simp only [ne_eq, decide_eq_true_eq]
  rintro rfl
  rw [createTableSql_eq tableName hne, List.mem_append, List.mem_append, List.mem_cons] at hb
  rcases hb with hb | hb | hb | hb
  · exact hcreate hb
  · exact hword tableName ht.isWord hb
  · cases hb
  · rcases mem_enclosed hb with hb | hb | ⟨x, hx, hb⟩
    · cases hb
    · cases hb
    · obtain ⟨e, he, rfl⟩ := List.mem_map.mp hx
      obtain ⟨hname, htype⟩ := hc e he
      simp only [columnText, List.mem_append] at hb
      rcases hb with ((hb | hb) | hb) | hb
      · exact hword e.1 hname.isWord hb
      · exact hspace hb
      · exact hword e.2 htype hb
      · exact hnotNull hb

/-- The tokens of the statement. -/
theorem scan_createTableSql (ht : IsIdentifier reserved tableName) (hne : columnTypeMap.toList ≠ [])
    (hc : NamedColumns reserved columnTypeMap) :
    scanner.scan ((createTableSql tableName columnTypeMap).takeWhile (· ≠ 0)) =
      .word (bytes "CREATE") :: .word (bytes "TABLE") :: .word tableName :: .symbol openParen ::
        enclosed (.symbol comma) (.symbol closeParen)
          (columnTypeMap.toList.map fun e => columnTokens e.1 e.2) := by
  have hcolumns : ∀ x ∈ columnTypeMap.toList.map fun e => (columnText e.1 e.2, columnTokens e.1 e.2),
      ∀ d, d = comma ∨ d = closeParen → ∀ rest,
        scanner.scan (x.1 ++ d :: rest) = x.2 ++ scanner.scan (d :: rest) := by
    simp only [List.forall_mem_map]
    intro e he d hd rest
    obtain ⟨hname, htype⟩ := hc e he
    exact scan_columnText hname.isWord htype hd rest
  have hscan := Scanner.scan_enclosed_items (@scan_symbol comma (by decide))
    (@scan_symbol closeParen (by decide))
    (by simpa using hne) hcolumns []
  simp only [List.map_map, Function.comp_def, List.append_nil] at hscan
  have htext : createTableSql tableName columnTypeMap =
      bytes "CREATE" ++ 32 :: (bytes "TABLE" ++ 32 :: (tableName ++ openParen ::
        enclosed comma closeParen (columnTypeMap.toList.map fun e => columnText e.1 e.2))) := by
    rw [createTableSql_eq tableName hne]
    rfl
  rw [takeWhile_createTableSql ht hne hc, htext, scan_word (by decide) (by decide),
    scan_space_word (by decide) (by decide), scan_space_word ht.isWord (by decide),
    scan_symbol (by decide), hscan, show scanner.scan [] = [] from rfl, List.append_nil]

/-- SQLite reads the creation of a table with the columns of the map, if they are names that differ
in more than their case and all of type `TEXT`. -/
theorem readCreate_createTableSql (ht : IsTableName reserved tableName) (hne : columnTypeMap ≠ ∅)
    (hc : ∀ e ∈ columnTypeMap.toList, IsIdentifier reserved e.1 ∧ e.2 = bytes "TEXT")
    (hdistinct : ((columnTypeMap.toList.map Prod.fst).map upper).Nodup) :
    readCreate reserved (createTableSql tableName columnTypeMap) =
      some ⟨tableName, columnTypeMap.toList.map Prod.fst⟩ := by
  have hne' : columnTypeMap.toList ≠ [] := by simpa using hne
  have hnamed : NamedColumns reserved columnTypeMap := by
    intro e he
    obtain ⟨hname, htype⟩ := hc e he
    have hword : IsWord (bytes "TEXT") := by decide
    exact ⟨hname, htype ▸ hword⟩
  have htokens : (columnTypeMap.toList.map fun e => columnTokens e.1 e.2) =
      (columnTypeMap.toList.map Prod.fst).map fun c => columnTokens c (bytes "TEXT") := by
    rw [List.map_map]
    refine List.map_congr_left fun e he => ?_
    rw [(hc e he).2]
    rfl
  have hnames : ∀ c ∈ columnTypeMap.toList.map Prod.fst, IsIdentifier reserved c :=
    List.forall_mem_map.mpr fun e he => (hc e he).1
  have hcolumns := readColumns_enclosed (by simpa using hne') hnames []
  rw [List.append_nil] at hcolumns
  have hcreate : upper (bytes "CREATE") = bytes "CREATE" := by decide
  have htable : upper (bytes "TABLE") = bytes "TABLE" := by decide
  have hscan := scan_createTableSql ht.isIdentifier hne' hnamed
  rw [htokens] at hscan
  simp only [readCreate, bind, Option.bind_eq_some_iff, readKeyword_eq_some, readSymbol_eq_some,
    Prod.exists, readName_eq_some, Option.ite_none_right_eq_some]
  exact ⟨_, ⟨_, hcreate, hscan⟩, _, ⟨_, htable, rfl⟩, tableName, _, ⟨ht.isIdentifier, rfl⟩, _, rfl,
    _, _, hcolumns, ⟨ht, hdistinct, by simp⟩, rfl⟩

end Tokens

end SimpleChat
