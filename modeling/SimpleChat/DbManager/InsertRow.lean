import SimpleChat.DbManager.Sqlite
import Mathlib.Algebra.BigOperators.Group.List.Basic
import Mathlib.Data.List.TakeWhile

/-!
# Inserting a row

`DbWrapper::InsertRow` splices the table name, the column names and the values of a row into a
statement. A value is put between quotes as it is. SQLite reads the row back exactly if no value has
a quote, which would have to be doubled, or a NUL, which ends the text.

A table name that leaves a literal or a comment open swallows what comes after it, and may even hold
an insertion of its own: nothing is said of what such a text reads as.

## Main definitions

* `insertRowSql`: the text that `InsertRow` passes to `sqlite3_exec`
* `InsertedFaithfully`: SQLite reads the text as one insertion of exactly the row
* `TakesRows`: the texts that name a table, and the rows whose columns have names

## Main results

* `insertRowSql_eq`, `scan_insertRowSql`: the statement, written out, and its tokens
* `clean_of_scan`, `scan_of_clean`: the values are read back exactly if they are clean
* `insertedFaithfully_iff`: the rows that are inserted faithfully
-/

namespace SimpleChat

open Containers Std Text Sqlite

/-- `sql`, after the loop over the columns and the two `pop_back`s. -/
def insertRowSql (tableName : Bytes) (columnValMap : OrderedMap Bytes Bytes) : Bytes :=
  let loop := columnValMap.toList.foldl
    (fun (sql : Bytes × Bytes) it =>
      (sql.1 ++ (it.1 ++ [comma]), sql.2 ++ (quote :: it.2 ++ [quote] ++ [comma])))
    (bytes "(", bytes "VALUES(")
  let sqlColumns := loop.1.dropLast ++ [closeParen]
  let sqlRow := loop.2.dropLast ++ [closeParen]
  bytes "INSERT INTO " ++ (tableName ++ sqlColumns ++ sqlRow)

/-- SQLite reads the text of `InsertRow` as one insertion of every value in its own column. -/
def InsertedFaithfully (reserved : Bytes → Bool) (tableName : Bytes)
    (columnValMap : OrderedMap Bytes Bytes) : Prop :=
  ∃ table, readSql reserved (insertRowSql tableName columnValMap) = some ⟨table, columnValMap.toList⟩

/-! ## The statement -/

/-- The statement up to its values. -/
def sqlHead (tableName : Bytes) (columns : List Bytes) : Bytes :=
  bytes "INSERT INTO " ++
    (tableName ++ openParen :: (enclosed comma closeParen columns ++ bytes "VALUES("))

/-- The values of the statement. -/
def sqlValues (values : List Bytes) : Bytes :=
  enclosed comma closeParen (values.map fun v => quote :: (v ++ [quote]))

/-- The columns and the values are written by two independent loops. -/
theorem foldl_loop (l : List (Bytes × Bytes)) (c r : Bytes) :
    l.foldl (fun (sql : Bytes × Bytes) it =>
        (sql.1 ++ (it.1 ++ [comma]), sql.2 ++ (quote :: it.2 ++ [quote] ++ [comma]))) (c, r) =
      ((l.map Prod.fst).foldl (fun acc x => acc ++ (x ++ [comma])) c,
        (l.map fun e => quote :: (e.2 ++ [quote])).foldl (fun acc x => acc ++ (x ++ [comma])) r) := by
  induction l generalizing c r with
  | nil => rfl
  | cons e l ih =>
    rw [List.foldl_cons, ih]
    rfl

theorem insertRowSql_eq (tableName : Bytes) {columnValMap : OrderedMap Bytes Bytes}
    (hne : columnValMap.toList ≠ []) :
    insertRowSql tableName columnValMap =
      sqlHead tableName (columnValMap.toList.map Prod.fst) ++
        sqlValues (columnValMap.toList.map Prod.snd) := by
  unfold insertRowSql
  simp only [foldl_loop]
  rw [dropLast_foldl_append comma closeParen (by simpa using hne),
    dropLast_foldl_append comma closeParen (by simpa using hne)]
  simp only [sqlHead, sqlValues, List.map_map, List.append_assoc, List.cons_append,
    List.nil_append, Function.comp_def, show bytes "(" = [openParen] from rfl]

section Tokens

variable {reserved : Bytes → Bool} {tableName : Bytes} {columns values : List Bytes}

/-- The tokens of the statement up to its values. -/
theorem scan_sqlHead (ht : Closed tableName) (hne : columns ≠ [])
    (hc : ∀ c ∈ columns, IsIdentifier reserved c) (rest : Bytes) :
    scanner.scan (sqlHead tableName columns ++ rest) =
      .word (bytes "INSERT") :: .word (bytes "INTO") :: (scanner.scanFrom .space tableName ++
        .symbol openParen :: (names columns ++ .word (bytes "VALUES") :: .symbol openParen ::
          scanner.scan rest)) := by
  have htext : sqlHead tableName columns ++ rest =
      bytes "INSERT" ++ 32 :: (bytes "INTO" ++ 32 :: (tableName ++ openParen ::
        (enclosed comma closeParen columns ++ (bytes "VALUES" ++ openParen :: rest)))) := by
    simp only [sqlHead, List.append_assoc, List.cons_append]
    rfl
  rw [htext, scan_word (by decide) (by decide), scan_space_word (by decide) (by decide), scan_space,
    scanFrom_closed ht, scan_names hne hc, scan_word (by decide) (by decide),
    scan_symbol (by decide)]

/-- The statement up to its values has no NUL. -/
theorem ne_zero_of_mem_sqlHead (ht : Closed tableName)
    (hc : ∀ c ∈ columns, IsIdentifier reserved c) : ∀ b ∈ sqlHead tableName columns, b ≠ 0 := by
  have hinsert : (0 : UInt8) ∉ bytes "INSERT INTO " := by decide
  have hvalues : (0 : UInt8) ∉ bytes "VALUES(" := by decide
  rintro b hb rfl
  simp only [sqlHead, List.mem_append, List.mem_cons] at hb
  rcases hb with hb | hb | hb | hb | hb
  · exact hinsert hb
  · exact ht.2 hb
  · cases hb
  · rcases mem_enclosed hb with hb | hb | ⟨c, hcol, hb⟩
    · cases hb
    · cases hb
    · have hzero : isIdChar 0 = true := (hc c hcol).isWord.isIdChar 0 hb
      cases hzero
  · exact hvalues hb

/-- The values may cut the text, the statement up to them does not. -/
theorem takeWhile_sql (ht : Closed tableName)
    (hc : ∀ c ∈ columns, IsIdentifier reserved c) (rest : Bytes) :
    (sqlHead tableName columns ++ rest).takeWhile (· ≠ 0) =
      sqlHead tableName columns ++ rest.takeWhile (· ≠ 0) :=
  List.takeWhile_append_of_pos fun b hb => by
    simpa using ne_zero_of_mem_sqlHead ht hc b hb

/-- The tokens of the text, up to those of its values. -/
theorem scan_insertRowSql {columnValMap : OrderedMap Bytes Bytes}
    (ht : Closed tableName) (hne : columnValMap.toList ≠ [])
    (hc : ∀ c ∈ columnValMap.toList.map Prod.fst, IsIdentifier reserved c) :
    scanner.scan ((insertRowSql tableName columnValMap).takeWhile (· ≠ 0)) =
      .word (bytes "INSERT") :: .word (bytes "INTO") :: (scanner.scanFrom .space tableName ++
        .symbol openParen :: (names (columnValMap.toList.map Prod.fst) ++
          .word (bytes "VALUES") :: .symbol openParen ::
            scanner.scan ((sqlValues (columnValMap.toList.map Prod.snd)).takeWhile (· ≠ 0)))) := by
  rw [insertRowSql_eq tableName hne, takeWhile_sql ht hc, scan_sqlHead ht (by simpa using hne) hc]

end Tokens

/-- Neither names nor literals have a parenthesis that opens. -/
theorem count_openParen (ws vs : List Bytes) :
    (names ws).count (.symbol openParen) = 0 ∧ (literals vs).count (.symbol openParen) = 0 := by
  constructor
  all_goals
    refine List.count_eq_zero.mpr fun h => ?_
    rcases mem_enclosed h with h | h | ⟨x, hx, h⟩
    · exact absurd h (by decide)
    · exact absurd h (by decide)
    · obtain ⟨w, -, rfl⟩ := List.mem_map.mp hx
      cases List.mem_singleton.mp h

/-- In what is read as an insertion of the columns, the parenthesis after the name of the table is the
first: there are two, and the other one comes before the values. -/
theorem tableTokens_eq {nameTokens tableTokens valueTokens rest : List Token} {columns : List Bytes}
    {values : List Bytes} {k₃ w : Bytes} (htable : Token.symbol openParen ∉ tableTokens)
    (hrest : ∀ t ∈ rest, t = .symbol semicolon)
    (h : nameTokens ++ .symbol openParen :: (names columns ++ .word w :: .symbol openParen ::
        valueTokens) =
      tableTokens ++ .symbol openParen :: (names columns ++ .word k₃ :: .symbol openParen ::
        (literals values ++ rest))) :
    nameTokens = tableTokens ∧ valueTokens = literals values ++ rest := by
  obtain ⟨hnames, hliterals⟩ := count_openParen columns values
  have hsemicolons : rest.count (.symbol openParen) = 0 :=
    List.count_eq_zero.mpr fun hmem => absurd (hrest _ hmem) (by decide)
  have hcount := congrArg (List.count (Token.symbol openParen)) h
  simp only [List.count_append, List.count_cons_self, List.count_eq_zero.mpr htable, hnames,
    hliterals, hsemicolons, List.count_cons_of_ne (by simp : Token.word _ ≠ .symbol openParen)]
    at hcount
  have hname : Token.symbol openParen ∉ nameTokens := List.count_eq_zero.mp (by omega)
  have hspan := congrArg (fun ts => ts.span (· ≠ Token.symbol openParen)) h
  simp only [span_eq_append_cons hname, span_eq_append_cons htable, Prod.mk.injEq, List.cons.injEq,
    true_and, List.append_cancel_left_eq] at hspan
  exact ⟨hspan.1, hspan.2.2⟩

theorem length_sqlValues {values : List Bytes} (hne : values ≠ []) :
    (sqlValues values).length = (values.map fun v => 3 + v.length).sum := by
  rw [sqlValues, length_enclosed _ _ (by simpa using hne), List.map_map]
  congr 1
  refine List.map_congr_left fun v _ => ?_
  simp only [Function.comp_apply, List.length_cons, List.length_append, List.length_nil]
  omega

/-- If the values are read back, even with something after them, they have no quote and no NUL:
each quote would make the tokens one longer than the text, and a NUL makes the text shorter. -/
theorem clean_of_scan {values : List Bytes} (hne : values ≠ []) {rest : List Token}
    (h : scanner.scan ((sqlValues values).takeWhile (· ≠ 0)) = literals values ++ rest) :
    ∀ v ∈ values, quote ∉ v ∧ 0 ∉ v := by
  have hcut : (sqlValues values).takeWhile (· ≠ 0) <+: sqlValues values :=
    List.takeWhile_prefix _
  have hweight := Scanner.sum_weight_scan_le weighs rfl ((sqlValues values).takeWhile (· ≠ 0))
  have hlen := length_sqlValues hne
  rw [h, List.map_append, List.sum_append, sum_weight_literals hne, List.sum_map_add, ← hlen]
    at hweight
  -- the tokens weigh the length of the values and the number of quotes in them
  have hle := hcut.length_le
  have hquotes : (values.map (List.count quote)).sum = 0 := by omega
  have hwhole : (sqlValues values).takeWhile (· ≠ 0) = sqlValues values :=
    hcut.eq_of_length_le (by omega)
  intro v hv
  constructor
  · have hcount := List.sum_eq_zero_iff_forall_eq_nat.mp hquotes (v.count quote)
      (List.mem_map_of_mem hv)
    exact List.count_eq_zero.mp hcount
  · -- a NUL in a value would have cut the text
    intro h0
    have hmem : (0 : UInt8) ∈ sqlValues values :=
      mem_enclosed_of_mem (List.mem_map_of_mem hv) (by simp [h0])
    have hne0 := List.takeWhile_eq_self_iff.mp hwhole 0 hmem
    simp at hne0

/-- Values without a quote and without a NUL are read back, and nothing else. -/
theorem scan_of_clean {values : List Bytes} (hne : values ≠ [])
    (h : ∀ v ∈ values, quote ∉ v ∧ 0 ∉ v) :
    scanner.scan ((sqlValues values).takeWhile (· ≠ 0)) = literals values := by
  have hwhole : (sqlValues values).takeWhile (· ≠ 0) = sqlValues values := by
    apply List.takeWhile_eq_self_iff.mpr
    intro b hb
    simp only [ne_eq, decide_eq_true_eq]
    rintro rfl
    rcases mem_enclosed hb with hb | hb | ⟨x, hx, hb⟩
    · cases hb
    · cases hb
    · obtain ⟨v, hv, rfl⟩ := List.mem_map.mp hx
      simp only [List.mem_cons, List.mem_append] at hb
      rcases hb with hb | hb | hb | hb
      · cases hb
      · exact (h v hv).2 hb
      · cases hb
      · cases hb
  have hscan := scan_literals hne (fun v hv => (h v hv).1) []
  rw [hwhole, sqlValues]
  simpa [Scanner.scan, Scanner.scanFrom, scanner, finish] using hscan

/-- The text names a table, the row has at least one column, and its columns have names. -/
structure TakesRows (reserved : Bytes → Bool) (tableName : Bytes)
    (columnValMap : OrderedMap Bytes Bytes) : Prop where
  isTableText : IsTableText reserved tableName
  ne_empty : columnValMap ≠ ∅
  columns : ∀ c ∈ columnValMap, IsIdentifier reserved c

/-- A row of values without quotes and NULs is read back, if the text names a table. -/
theorem readSql_of_clean {reserved : Bytes → Bool} {tableName : Bytes}
    {columnValMap : OrderedMap Bytes Bytes} (h : TakesRows reserved tableName columnValMap)
    (hclean : ∀ (c v : Bytes), columnValMap[c]? = some v → quote ∉ v ∧ 0 ∉ v) {table : TableName}
    (htable : readTable reserved (scanner.scanFrom .space tableName) = some table) :
    readSql reserved (insertRowSql tableName columnValMap) = some ⟨table, columnValMap.toList⟩ := by
  have hne : columnValMap.toList ≠ [] := by simpa using h.ne_empty
  have hcolumns : ∀ c ∈ columnValMap.toList.map Prod.fst, IsIdentifier reserved c := by
    simpa using h.columns
  have hvalues : ∀ v ∈ columnValMap.toList.map Prod.snd, quote ∉ v ∧ 0 ∉ v := by
    rintro v hv
    obtain ⟨e, he, rfl⟩ := List.mem_map.mp hv
    exact hclean e.1 e.2 (ExtTreeMap.mem_toList_iff_getElem?_eq_some.mp he)
  have htokens := scan_insertRowSql h.isTableText.1 hne hcolumns
  rw [scan_of_clean (by simpa using hne) hvalues, ← List.append_nil (literals _)] at htokens
  refine readInsert_eq_some.mpr ⟨columnValMap.toList.map Prod.fst, columnValMap.toList.map Prod.snd,
    ⟨by simpa using hne, hcolumns, by simp, _, _, _, _, [], rfl, rfl, rfl, htable, by simp, htokens⟩,
    ?_⟩
  rw [← List.unzip_fst, ← List.unzip_snd, List.zip_unzip]

/-- **The rows that are inserted faithfully**: if the text names a table and the columns have names, a
row is inserted faithfully if no value has a quote or a NUL; and where the table name ends with a
token, no other row is. -/
theorem insertedFaithfully_iff (reserved : Bytes → Bool) (tableName : Bytes)
    (columnValMap : OrderedMap Bytes Bytes) :
    (TakesRows reserved tableName columnValMap ∧
        (∀ (c v : Bytes), columnValMap[c]? = some v → quote ∉ v ∧ 0 ∉ v) →
      InsertedFaithfully reserved tableName columnValMap) ∧
    (Closed tableName → InsertedFaithfully reserved tableName columnValMap →
      TakesRows reserved tableName columnValMap ∧
        ∀ (c v : Bytes), columnValMap[c]? = some v → quote ∉ v ∧ 0 ∉ v) := by
  constructor
  · rintro ⟨htakes, hclean⟩
    obtain ⟨table, htable⟩ := Option.isSome_iff_exists.mp htakes.isTableText.2
    exact ⟨table, readSql_of_clean htakes hclean htable⟩
  · rintro hclosed ⟨table, hread⟩
    obtain ⟨columns, values, hins, hrow⟩ := readInsert_eq_some.mp hread
    have hrow : columnValMap.toList = columns.zip values := hrow
    -- what is read back is the row, so the columns and the values are those of the map
    obtain rfl : columnValMap.toList.map Prod.fst = columns := by
      rw [hrow, List.map_fst_zip hins.length_eq.le]
    obtain rfl : columnValMap.toList.map Prod.snd = values := by
      rw [hrow, List.map_snd_zip hins.length_eq.ge]
    have hne : columnValMap.toList ≠ [] := fun h => hins.columns_ne_nil (by rw [h]; rfl)
    obtain ⟨k₁, k₂, k₃, tableTokens, rest, -, -, -, htable, hrest, htokens⟩ := hins.tokens
    rw [scan_insertRowSql hclosed hne hins.column_name, List.cons.injEq, List.cons.injEq] at htokens
    obtain ⟨rfl, hvalues⟩ := tableTokens_eq (openParen_notMem_of_readTable htable) hrest htokens.2.2
    have hclean := clean_of_scan (by simpa using hne) hvalues
    refine ⟨⟨⟨hclosed, by rw [htable]; rfl⟩, by simpa using hne, by simpa using hins.column_name⟩,
      fun c v hcv => ?_⟩
    exact hclean v (List.mem_map.mpr
      ⟨(c, v), ExtTreeMap.mem_toList_iff_getElem?_eq_some.mpr hcv, rfl⟩)

example : IsTableText (fun _ => false) (bytes " main.\"order\" AS t") := by decide

/-- The columns that `DbManager::NewMessage` writes. -/
def messageColumns (username message date : Bytes) : OrderedMap Bytes Bytes :=
  .ofList [(bytes "Username", username), (bytes "Message", message), (bytes "Date", date)]

/-- A message with an apostrophe. -/
def apostrophe : OrderedMap Bytes Bytes :=
  messageColumns (bytes "bob") (bytes "it's") (bytes "[2024-0-1 0:0:0]")

/-- A message with an apostrophe is not inserted: its row has names for its columns, but SQLite
reads no insertion in the text. -/
theorem apostrophe_not_inserted :
    IsTableText (fun _ => false) (bytes "UserMessages") ∧
      (∀ c ∈ apostrophe.keys, IsIdentifier (fun _ => false) c) ∧
      readSql (fun _ => false) (insertRowSql (bytes "UserMessages") apostrophe) = none ∧
      ¬ InsertedFaithfully (fun _ => false) (bytes "UserMessages") apostrophe := by
  have hread : readSql (fun _ => false) (insertRowSql (bytes "UserMessages") apostrophe) = none := by
    decide
  refine ⟨by decide, by decide, hread, ?_⟩
  rintro ⟨table, h⟩
  rw [hread] at h
  cases h

end SimpleChat
