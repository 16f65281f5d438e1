import SimpleChat.Common.Basic
import SimpleChat.Text.Scanner

/-!
# How SQLite reads an insertion

The text ends at its first NUL. A string literal runs from a quote to the next quote that is not
doubled, and a doubled quote stands for one. Names are runs of identifier characters, or anything in
double quotes, in backquotes or in brackets; comments, white space and byte order marks separate
tokens.

The reader accepts a text that is one `INSERT` of string literals into a table, which is named as
SQLite lets an `INSERT` name it: by a name or a literal, with a schema before it or not, and with an
alias after it or not. Words that SQLite does not take as names are a parameter.

## Main definitions

* `Sqlite.Token`, `Sqlite.scanner`: the tokens of a text
* `Sqlite.IsIdentifier`: the words that are names
* `Sqlite.readInsert`, `Sqlite.readSql`: the table and the row that a text inserts
* `Sqlite.Closed`, `Sqlite.IsTableText`: the texts that end where a token does, and those that name a
  table

## Main results

* `Sqlite.readInsert_eq_some`: the token lists that are an insertion
* `Sqlite.scan_names`, `Sqlite.scan_literals`: the tokens of a list of names, and of a list of
  literals without quotes
* `Sqlite.weighs`: a literal is as long as its text, with every quote doubled
-/

namespace SimpleChat

open Text

namespace Sqlite

/-! ## Characters -/

def verticalTab : UInt8 := 11
def newline : UInt8 := 10
def doubleQuote : UInt8 := 34
def dollar : UInt8 := 36
def quote : UInt8 := 39
def openParen : UInt8 := 40
def closeParen : UInt8 := 41
def star : UInt8 := 42
def comma : UInt8 := 44
def dash : UInt8 := 45
def dot : UInt8 := 46
def slash : UInt8 := 47
def semicolon : UInt8 := 59
def openBracket : UInt8 := 91
def closeBracket : UInt8 := 93
def backquote : UInt8 := 96

/-- The white space that a token can begin with. -/
def isSpace (b : UInt8) : Bool := b == 9 || b == newline || b == 12 || b == 13 || b == 32

def isDigit (b : UInt8) : Bool := 48 ≤ b && b ≤ 57

def isUpper (b : UInt8) : Bool := 65 ≤ b && b ≤ 90

def isLower (b : UInt8) : Bool := 97 ≤ b && b ≤ 122

/-- The characters of names: letters, digits, `_`, `$` and the bytes beyond ASCII. -/
def isIdChar (b : UInt8) : Bool :=
  isDigit b || isUpper b || isLower b || b == 95 || b == dollar || 128 ≤ b

/-- The byte order mark, white space where a token can begin. -/
def byteOrderMark : Bytes := [0xEF, 0xBB, 0xBF]

/-- Keywords are read in either case. -/
def upper (w : Bytes) : Bytes := w.map fun b => if isLower b then b - 32 else b

/-! ## Tokens -/

inductive Token where
  | word (w : Bytes)
  | quoted (v : Bytes)
  | string (v : Bytes)
  | symbol (b : UInt8)
  | unterminated
  deriving DecidableEq, Repr

/-- The quotes of names. -/
inductive NameQuote where
  | double
  | back
  deriving DecidableEq, Repr

def NameQuote.char : NameQuote → UInt8
  | double => doubleQuote
  | back => backquote

/-- What the scanner is in the middle of. In `closing` and `quotedClosing` it has read a quote within
a literal and within a quoted name, in `mark` a part of a byte order mark, and in `blockOpen` the two
symbols that open a comment, if something comes after them. -/
inductive Mode where
  | start
  | space
  | mark (w : Bytes)
  | word (w : Bytes)
  | literal (v : Bytes)
  | closing (v : Bytes)
  | quoted (q : NameQuote) (v : Bytes)
  | quotedClosing (q : NameQuote) (v : Bytes)
  | bracketed (v : Bytes)
  | dash
  | lineComment
  | slash
  | blockOpen
  | blockComment
  | blockStar
  deriving DecidableEq, Repr

/-- The first character of a token. -/
def first (b : UInt8) : List Token × Mode :=
  if isSpace b then ([], .space)
  else if [b] <+: byteOrderMark then ([], .mark [b])
  else if isIdChar b then ([], .word [b])
  else if b = quote then ([], .literal [])
  else if b = doubleQuote then ([], .quoted .double [])
  else if b = backquote then ([], .quoted .back [])
  else if b = openBracket then ([], .bracketed [])
  else if b = dash then ([], .dash)
  else if b = slash then ([], .slash)
  else ([.symbol b], .start)

/-- A token is complete, and the next one starts. -/
def complete (t : Token) (b : UInt8) : List Token × Mode := (t :: (first b).1, (first b).2)

/-- Within a comment of the form `/*…*/`. -/
def inBlock (b : UInt8) : List Token × Mode := ([], if b = star then .blockStar else .blockComment)

def next : Mode → UInt8 → List Token × Mode
  | .start, b => first b
  | .space, b => if b = verticalTab then ([], .space) else first b
  | .mark w, b =>
    if w ++ [b] = byteOrderMark then ([], .start)
    else if w ++ [b] <+: byteOrderMark then ([], .mark (w ++ [b]))
    else if isIdChar b then ([], .word (w ++ [b]))
    else complete (.word w) b
  | .word w, b => if isIdChar b then ([], .word (w ++ [b])) else complete (.word w) b
  | .literal v, b => if b = quote then ([], .closing v) else ([], .literal (v ++ [b]))
  | .closing v, b => if b = quote then ([], .literal (v ++ [quote])) else complete (.string v) b
  | .quoted q v, b => if b = q.char then ([], .quotedClosing q v) else ([], .quoted q (v ++ [b]))
  | .quotedClosing q v, b =>
    if b = q.char then ([], .quoted q (v ++ [b])) else complete (.quoted v) b
  | .bracketed v, b =>
    if b = closeBracket then ([.quoted v], .start) else ([], .bracketed (v ++ [b]))
  | .dash, b => if b = dash then ([], .lineComment) else complete (.symbol dash) b
  | .lineComment, b => if b = newline then ([], .space) else ([], .lineComment)
  | .slash, b => if b = star then ([], .blockOpen) else complete (.symbol slash) b
  | .blockOpen, b => inBlock b
  | .blockComment, b => inBlock b
  | .blockStar, b => if b = slash then ([], .start) else inBlock b

def finish : Mode → List Token
  | .start | .space | .lineComment | .blockComment | .blockStar => []
  | .mark w | .word w => [.word w]
  | .literal _ | .quoted _ _ | .bracketed _ => [.unterminated]
  | .closing v => [.string v]
  | .quotedClosing _ v => [.quoted v]
  | .dash => [.symbol dash]
  | .slash => [.symbol slash]
  | .blockOpen => [.symbol slash, .symbol star]

def scanner : Scanner UInt8 Token Mode := ⟨.start, next, finish⟩

/-! ## Statements -/

/-- The name of a table in a statement. -/
structure TableName where
  schema : Option Bytes
  table : Bytes
  deriving DecidableEq, Repr

/-- What an `INSERT` inserts. -/
structure Insert where
  table : TableName
  row : List (Bytes × Bytes)
  deriving DecidableEq, Repr

/-- A text that is one word. -/
structure IsWord (w : Bytes) : Prop where
  ne_nil : w ≠ []
  isIdChar : ∀ b ∈ w, isIdChar b = true
  no_mark : ¬ byteOrderMark <+: w

instance (w : Bytes) : Decidable (IsWord w) :=
  decidable_of_iff (w ≠ [] ∧ w.all isIdChar = true ∧ ¬ byteOrderMark <+: w)
    ⟨fun ⟨hne, hall, hmark⟩ => ⟨hne, List.all_eq_true.mp hall, hmark⟩,
    fun h => ⟨h.ne_nil, List.all_eq_true.mpr h.isIdChar, h.no_mark⟩⟩

section Read

variable (reserved : Bytes → Bool)

/-- A word that is read as a name. -/
structure IsIdentifier (w : Bytes) : Prop where
  isWord : IsWord w
  head : ∀ b ∈ w.head?, isDigit b = false ∧ b ≠ dollar
  not_reserved : reserved w = false

instance (w : Bytes) : Decidable (IsIdentifier reserved w) :=
  decidable_of_iff
    (IsWord w ∧ w.head?.all (fun b => !isDigit b && b != dollar) = true ∧ reserved w = false)
    ⟨fun ⟨hword, hhead, hres⟩ => ⟨hword, by simpa [Option.all_eq_true] using hhead, hres⟩,
    fun h => ⟨h.isWord, by simpa [Option.all_eq_true] using h.head, h.not_reserved⟩⟩

def name : Token → Option Bytes
  | .word w => if IsIdentifier reserved w then some w else none
  | _ => none

def literal : Token → Option Bytes
  | .string v => some v
  | _ => none

/-- Where SQLite wants a name it also takes a quoted name or a literal. -/
def nameOrLiteral : Token → Option Bytes
  | .word w => name reserved (.word w)
  | .quoted v => some v
  | .string v => some v
  | _ => none

def readKeyword (k : String) : List Token → Option (List Token)
  | .word w :: ts => if upper w = bytes k then some ts else none
  | _ => none

def readSymbol (b : UInt8) : List Token → Option (List Token)
  | t :: ts => if t = .symbol b then some ts else none
  | [] => none

def readName : List Token → Option (Bytes × List Token)
  | t :: ts => (name reserved t).map fun w => (w, ts)
  | [] => none

/-- The alias of a table, if there is one. -/
def readAlias : List Token → Option Unit
  | [] => some ()
  | [.word k, a] => if upper k = bytes "AS" then (nameOrLiteral reserved a).map fun _ => () else none
  | _ => none

/-- The name of a table, with a schema before it or not, and with an alias after it or not. -/
def readTable : List Token → Option TableName
  | s :: .symbol b :: t :: ts =>
    if b = dot then do
      let schema ← nameOrLiteral reserved s
      let table ← nameOrLiteral reserved t
      let _ ← readAlias reserved ts
      some ⟨some schema, table⟩
    else none
  | t :: ts => do
    let table ← nameOrLiteral reserved t
    let _ ← readAlias reserved ts
    some ⟨none, table⟩
  | [] => none

/-- `INSERT INTO table(c₁,…,cₙ)VALUES(v₁,…,vₙ)`, and nothing but semicolons after it. -/
def readInsert (ts : List Token) : Option Insert := do
  let ts ← readKeyword "INSERT" ts
  let ts ← readKeyword "INTO" ts
  let (tableTokens, ts) := ts.span (· ≠ .symbol openParen)
  let table ← readTable reserved tableTokens
  let ts ← readSymbol openParen ts
  let (columns, ts) ← readEnclosed (name reserved) (.symbol comma) (.symbol closeParen) ts
  let ts ← readKeyword "VALUES" ts
  let ts ← readSymbol openParen ts
  let (values, ts) ← readEnclosed literal (.symbol comma) (.symbol closeParen) ts
  if columns.length = values.length ∧ ∀ t ∈ ts, t = .symbol semicolon then
    some ⟨table, columns.zip values⟩
  else none

/-- What a text inserts, if it is one insertion of string literals. -/
def readSql (sql : Bytes) : Option Insert :=
  readInsert reserved (scanner.scan (sql.takeWhile (· ≠ 0)))

/-- The scanner is in the middle of a literal, of a quoted name or of a comment, where a parenthesis
is no token of its own. -/
def Mode.isOpen : Mode → Bool
  | .literal _ | .quoted _ _ | .bracketed _ => true
  | .lineComment | .blockOpen | .blockComment | .blockStar => true
  | _ => false

/-- Within a statement, after a space, the text ends where a token does, and not before its end. -/
def Closed (text : Bytes) : Prop := (scanner.feed .space text).2.isOpen = false ∧ 0 ∉ text

instance (text : Bytes) : Decidable (Closed text) := inferInstanceAs (Decidable (_ ∧ _))

/-- SQLite reads the text, after `INSERT INTO `, as the name of a table. -/
def IsTableText (text : Bytes) : Prop :=
  Closed text ∧ (readTable reserved (scanner.scanFrom .space text)).isSome = true

instance (text : Bytes) : Decidable (IsTableText reserved text) :=
  inferInstanceAs (Decidable (_ ∧ _))

end Read

/-! ## The token lists that are an insertion -/

/-- A list of names as tokens. -/
def names (ws : List Bytes) : List Token :=
  enclosed (.symbol comma) (.symbol closeParen) (ws.map fun w => [.word w])

/-- A list of literals as tokens. -/
def literals (vs : List Bytes) : List Token :=
  enclosed (.symbol comma) (.symbol closeParen) (vs.map fun v => [.string v])

theorem name_eq_some {reserved : Bytes → Bool} {t : Token} {w : Bytes} :
    name reserved t = some w ↔ t = .word w ∧ IsIdentifier reserved w := by
  cases t with
  | word x =>
    simp only [name, Option.ite_none_right_eq_some, Option.some.injEq, Token.word.injEq]
    constructor
    · rintro ⟨hx, rfl⟩
      exact ⟨rfl, hx⟩
    · rintro ⟨rfl, hx⟩
      exact ⟨hx, rfl⟩
  | quoted v => simp [name]
  | string v => simp [name]
  | symbol b => simp [name]
  | unterminated => simp [name]

theorem literal_eq_some {t : Token} {v : Bytes} :
    literal t = some v ↔ t = .string v ∧ True := by
  cases t <;> simp [literal]

theorem readKeyword_eq_some {k : String} {ts rest : List Token} :
    readKeyword k ts = some rest ↔ ∃ w, upper w = bytes k ∧ ts = .word w :: rest := by
  rcases ts with _ | ⟨_ | _ | _ | _ | _, ts⟩ <;> simp [readKeyword]

theorem readSymbol_eq_some {b : UInt8} {ts rest : List Token} :
    readSymbol b ts = some rest ↔ ts = .symbol b :: rest := by
  rcases ts with _ | ⟨t, ts⟩ <;> simp [readSymbol]

theorem readName_eq_some {reserved : Bytes → Bool} {ts rest : List Token} {w : Bytes} :
    readName reserved ts = some (w, rest) ↔
      IsIdentifier reserved w ∧ ts = .word w :: rest := by
  rcases ts with _ | ⟨t, ts⟩
  · simp [readName]
  · simp only [readName, Option.map_eq_some_iff, name_eq_some, Prod.mk.injEq, List.cons.injEq]
    constructor
    · rintro ⟨x, ⟨ht, hx⟩, rfl, hts⟩
      exact ⟨hx, ht, hts⟩
    · rintro ⟨hw, ht, hts⟩
      exact ⟨w, ⟨ht, hw⟩, rfl, hts⟩

/-- The name of a table, and its alias, have no parenthesis. -/
theorem openParen_notMem_of_readTable {reserved : Bytes → Bool} {ts : List Token} {t : TableName}
    (h : readTable reserved ts = some t) : Token.symbol openParen ∉ ts := by
  have hname : ∀ {x : Token} {v : Bytes}, nameOrLiteral reserved x = some v → .symbol openParen ≠ x := by
    rintro x v hx rfl
    cases hx
  have halias : ∀ {us : List Token} {a : Unit}, readAlias reserved us = some a →
      .symbol openParen ∉ us := by
    intro us a hus
    unfold readAlias at hus
    split at hus
    · exact List.not_mem_nil
    · next k a =>
      simp only [Option.ite_none_right_eq_some, Option.map_eq_some_iff] at hus
      obtain ⟨-, v, ha, -⟩ := hus
      simpa using hname ha
    · cases hus
  unfold readTable at h
  split at h
  · next s b x us =>
    simp only [Option.ite_none_right_eq_some, bind, Option.bind_eq_some_iff] at h
    obtain ⟨hb, v, hs, w, hx, a, hus, -⟩ := h
    have hparen : openParen ≠ b := by
      rintro rfl
      cases hb
    simpa [hparen] using ⟨hname hs, hname hx, halias hus⟩
  · next x us =>
    simp only [bind, Option.bind_eq_some_iff] at h
    obtain ⟨v, hx, a, hus, -⟩ := h
    simpa using ⟨hname hx, halias hus⟩
  · cases h

/-- The token lists that insert a row of given columns and values into a table. -/
structure IsInsert (reserved : Bytes → Bool) (table : TableName) (columns values : List Bytes)
    (ts : List Token) : Prop where
  columns_ne_nil : columns ≠ []
  column_name : ∀ c ∈ columns, IsIdentifier reserved c
  length_eq : columns.length = values.length
  tokens : ∃ k₁ k₂ k₃ tableTokens rest, upper k₁ = bytes "INSERT" ∧ upper k₂ = bytes "INTO" ∧
    upper k₃ = bytes "VALUES" ∧ readTable reserved tableTokens = some table ∧
    (∀ t ∈ rest, t = .symbol semicolon) ∧
    ts = .word k₁ :: .word k₂ :: (tableTokens ++ .symbol openParen ::
      (names columns ++ .word k₃ :: .symbol openParen :: (literals values ++ rest)))

/-- A list up to the first element of a kind that is there. -/
theorem span_eq_append_cons {α : Type} [DecidableEq α] {as : List α} {a : α} (h : a ∉ as)
    (rest : List α) : (as ++ a :: rest).span (· ≠ a) = (as, a :: rest) := by
  have hall : ∀ x ∈ as, decide (x ≠ a) = true := by
    intro x hx
    rw [decide_eq_true_iff]
    rintro rfl
    exact h hx
  rw [List.span_eq_takeWhile_dropWhile, List.takeWhile_append_of_pos hall,
    List.dropWhile_append_of_pos hall]
  simp

theorem readInsert_eq_some {reserved : Bytes → Bool} {ts : List Token} {ins : Insert} :
    readInsert reserved ts = some ins ↔
      ∃ columns values, IsInsert reserved ins.table columns values ts ∧
        ins.row = columns.zip values := by
  have hdelim : Token.symbol comma ≠ .symbol closeParen := by decide
  simp only [readInsert, bind, Option.bind_eq_some_iff, readKeyword_eq_some, readSymbol_eq_some,
    Prod.exists, readEnclosed_eq_some hdelim fun _ _ => name_eq_some,
    readEnclosed_eq_some hdelim fun _ _ => literal_eq_some, Option.ite_none_right_eq_some]
  constructor
  · rintro ⟨_, ⟨k₁, hk₁, rfl⟩, ts, ⟨k₂, hk₂, rfl⟩, table, htable, _, hparen, columns, _,
      ⟨hne, hcolumns, rfl⟩, _, ⟨k₃, hk₃, rfl⟩, _, rfl, values, rest, ⟨-, -, rfl⟩,
      ⟨hlen, hrest⟩, hins⟩
    obtain rfl := Option.some.inj hins
    have hsplit : ts = (ts.span (· ≠ .symbol openParen)).1 ++ (ts.span (· ≠ .symbol openParen)).2 := by
      simp
    rw [hparen] at hsplit
    exact ⟨columns, values, ⟨hne, hcolumns, hlen, k₁, k₂, k₃, _, rest, hk₁, hk₂, hk₃, htable, hrest,
      congrArg (fun ts => Token.word k₁ :: Token.word k₂ :: ts) hsplit⟩, rfl⟩
  · rintro ⟨columns, values, ⟨hne, hcolumns, hlen, k₁, k₂, k₃, tableTokens, rest, hk₁, hk₂, hk₃,
      htable, hrest, rfl⟩, hrow⟩
    have hspan := span_eq_append_cons (openParen_notMem_of_readTable htable)
      (names columns ++ .word k₃ :: .symbol openParen :: (literals values ++ rest))
    have hvalues : values ≠ [] := by
      rintro rfl
      exact hne (List.length_eq_zero_iff.mp hlen)
    refine ⟨_, ⟨k₁, hk₁, rfl⟩, _, ⟨k₂, hk₂, rfl⟩, ?_⟩
    rw [hspan]
    exact ⟨ins.table, htable, _, rfl, columns, _, ⟨hne, hcolumns, rfl⟩, _, ⟨k₃, hk₃, rfl⟩, _, rfl,
      values, rest, ⟨hvalues, fun _ _ => trivial, rfl⟩, ⟨hlen, hrest⟩, by rw [← hrow]⟩

/-! ## The tokens of names and literals -/

/-- The mode after a part of a word, which may be the beginning of a byte order mark. -/
def wordMode (w : Bytes) : Mode := if w <+: byteOrderMark then .mark w else .word w

/-- No identifier character is white space. -/
theorem first_of_isIdChar {b : UInt8} (hb : isIdChar b = true) : first b = ([], wordMode [b]) := by
  have hspace : isSpace b = false := by
    by_contra h
    simp only [isSpace, Bool.not_eq_false, Bool.or_eq_true, beq_iff_eq] at h
    rcases h with (((rfl | rfl) | rfl) | rfl) | rfl <;> revert hb <;> decide
  rw [first, wordMode, if_neg (by simp [hspace])]
  by_cases hmark : [b] <+: byteOrderMark
  · rw [if_pos hmark, if_pos hmark]
  · rw [if_neg hmark, if_neg hmark, if_pos hb]

theorem next_wordMode {w : Bytes} {b : UInt8} (hb : isIdChar b = true)
    (hmark : w ++ [b] ≠ byteOrderMark) : scanner.next (wordMode w) b = ([], wordMode (w ++ [b])) := by
  unfold wordMode
  by_cases hw : w <+: byteOrderMark
  · rw [if_pos hw]
    by_cases hwb : w ++ [b] <+: byteOrderMark
    · simp [scanner, next, hmark, hwb]
    · simp [scanner, next, hmark, hwb, hb]
  · have hwb : ¬ w ++ [b] <+: byteOrderMark := fun h => hw ((List.prefix_append w [b]).trans h)
    simp [scanner, next, hw, hwb, hb]

/-- A word, or the part of a byte order mark, ends at what is no identifier character. -/
theorem next_ended {d : UInt8} (hd : isIdChar d = false) (w : Bytes) :
    scanner.next (.mark w) d = complete (.word w) d ∧
      scanner.next (.word w) d = complete (.word w) d := by
  have hmark : byteOrderMark.all isIdChar = true := rfl
  have hnot : ¬ w ++ [d] <+: byteOrderMark := by
    intro h
    have hmem : d ∈ byteOrderMark := h.subset (by simp)
    simp [List.all_eq_true.mp hmark d hmem] at hd
  have hne : w ++ [d] ≠ byteOrderMark := fun h => hnot (h ▸ List.prefix_refl _)
  constructor <;> simp [scanner, next, hne, hnot, hd]

theorem next_literal {b : UInt8} (hb : b ≠ quote) (v : Bytes) :
    scanner.next (.literal v) b = ([], .literal (v ++ [b])) := if_neg hb

/-- The characters of a word complete no token, at the beginning of a text or after white space. -/
theorem feed_word {m : Mode} (hm : m = .start ∨ m = .space) {w : Bytes} (hw : IsWord w) :
    scanner.feed m w = ([], wordMode w) := by
  have hgo : ∀ v p : Bytes, p ++ v = w → scanner.feed (wordMode p) v = ([], wordMode w) := by
    intro v
    induction v with
    | nil =>
      rintro p rfl
      rw [List.append_nil]
      rfl
    | cons b v ih =>
      intro p hp
      have hb : isIdChar b = true := hw.isIdChar b (hp ▸ by simp)
      have hne : p ++ [b] ≠ byteOrderMark := by
        intro h
        exact hw.no_mark ⟨v, by rw [← h, ← hp, List.append_assoc]; rfl⟩
      rw [Scanner.feed, next_wordMode hb hne]
      exact ih (p ++ [b]) (by rw [← hp, List.append_assoc]; rfl)
  cases w with
  | nil => exact absurd rfl hw.ne_nil
  | cons b w =>
    have hb : isIdChar b = true := hw.isIdChar b (List.mem_cons_self ..)
    have hnext : scanner.next m b = ([], wordMode [b]) := by
      rcases hm with rfl | rfl
      · exact first_of_isIdChar hb
      · have htab : b ≠ verticalTab := by
          rintro rfl
          exact absurd hb (by decide)
        exact (if_neg htab).trans (first_of_isIdChar hb)
    rw [Scanner.feed, hnext]
    exact hgo w [b] rfl

/-- A word ends at the first character that is no identifier character. -/
theorem scanFrom_word {m : Mode} (hm : m = .start ∨ m = .space) {w : Bytes} (hw : IsWord w)
    {d : UInt8} (hd : isIdChar d = false) (rest : Bytes) :
    scanner.scanFrom m (w ++ d :: rest) = .word w :: scanner.scan (d :: rest) := by
  have hend : scanner.next (wordMode w) d = complete (.word w) d := by
    unfold wordMode
    split
    · exact (next_ended hd w).1
    · exact (next_ended hd w).2
  rw [Scanner.scanFrom_append, feed_word hm hw, List.nil_append]
  exact Scanner.scanFrom_cons hend rest

theorem scan_word {w : Bytes} (hw : IsWord w) {d : UInt8} (hd : isIdChar d = false)
    (rest : Bytes) : scanner.scan (w ++ d :: rest) = .word w :: scanner.scan (d :: rest) :=
  scanFrom_word (.inl rfl) hw hd rest

/-- A literal without a quote ends at its closing quote. -/
theorem scan_literal {v : Bytes} (hv : quote ∉ v) {d : UInt8} (hd : d ≠ quote) (rest : Bytes) :
    scanner.scan (quote :: (v ++ [quote]) ++ d :: rest) =
      .string v :: scanner.scan (d :: rest) := by
  have hopen : scanner.next scanner.start quote = ([], .literal []) := by decide
  have hnext : ∀ acc, ∀ c ∈ v, scanner.next (.literal acc) c = ([], .literal (acc ++ [c])) := by
    intro acc c hc
    refine next_literal ?_ acc
    rintro rfl
    exact hv hc
  have hclose : scanner.next (.literal v) quote = ([], .closing v) := by
    simp [scanner, next]
  have hend : scanner.next (.closing v) d = complete (.string v) d := if_neg hd
  calc scanner.scan (quote :: (v ++ [quote]) ++ d :: rest)
      = scanner.scanFrom (.literal []) (v ++ [quote] ++ d :: rest) :=
        Scanner.scanFrom_cons hopen _
    _ = scanner.scanFrom (.literal v) (quote :: d :: rest) := by
        rw [List.append_assoc]
        exact Scanner.scanFrom_absorb hnext [] _
    _ = scanner.scanFrom (.closing v) (d :: rest) := Scanner.scanFrom_cons hclose _
    _ = .string v :: scanner.scan (d :: rest) := Scanner.scanFrom_cons hend rest

theorem scan_space (rest : Bytes) : scanner.scan (32 :: rest) = scanner.scanFrom .space rest := by
  have hspace : scanner.next scanner.start 32 = ([], .space) := by decide
  exact Scanner.scanFrom_cons hspace rest

/-- A word ends the white space before it. -/
theorem scan_space_word {w : Bytes} (hw : IsWord w) {d : UInt8} (hd : isIdChar d = false)
    (rest : Bytes) :
    scanner.scan (32 :: (w ++ d :: rest)) = .word w :: scanner.scan (d :: rest) := by
  rw [scan_space]
  exact scanFrom_word (.inr rfl) hw hd rest

theorem scan_symbol {b : UInt8} (hb : first b = ([.symbol b], .start)) (rest : Bytes) :
    scanner.scan (b :: rest) = .symbol b :: scanner.scan rest := by
  have hnext : scanner.next scanner.start b = ([.symbol b], scanner.start) := hb
  exact Scanner.scan_cons hnext rest

/-- A parenthesis ends the token that a closed text stops in. -/
theorem scanFrom_closed {text : Bytes} (h : Closed text) (rest : Bytes) :
    scanner.scanFrom .space (text ++ openParen :: rest) =
      scanner.scanFrom .space text ++ .symbol openParen :: scanner.scan rest := by
  refine Scanner.scanFrom_ended ?_ rest
  have hended := @next_ended openParen (by decide)
  have hcomplete : ∀ t, complete t openParen = ([t] ++ [.symbol openParen], .start) := fun _ => rfl
  have hopen := h.1
  cases hmode : (scanner.feed .space text).2 with
  | mark w => exact (hended w).1.trans (hcomplete _)
  | word w => exact (hended w).2.trans (hcomplete _)
  | quotedClosing q v =>
    have hq : openParen ≠ q.char := by cases q <;> decide
    exact (if_neg hq).trans (hcomplete _)
  | start => decide
  | space => decide
  | closing v => rfl
  | dash => decide
  | slash => decide
  | _ =>
    rw [hmode] at hopen
    cases hopen

/-- A name is a text that names a table. -/
theorem readTable_of_isIdentifier {reserved : Bytes → Bool} {w : Bytes}
    (hw : IsIdentifier reserved w) :
    Closed w ∧ readTable reserved (scanner.scanFrom .space w) = some ⟨none, w⟩ := by
  have hfeed := feed_word (.inr rfl) hw.isWord
  have hmode : (wordMode w).isOpen = false ∧ finish (wordMode w) = [.word w] := by
    unfold wordMode
    split <;> exact ⟨rfl, rfl⟩
  refine ⟨⟨by rw [hfeed]; exact hmode.1, fun h0 => ?_⟩, ?_⟩
  · exact absurd (hw.isWord.isIdChar 0 h0) (by decide)
  · have htokens := Scanner.scanFrom_append (S := scanner) .space w []
    rw [List.append_nil, hfeed, Scanner.scanFrom] at htokens
    rw [htokens]
    simp [scanner, hmode.2, readTable, nameOrLiteral, name, hw, readAlias]

/-- The delimiters of a list end words and follow literals. -/
theorem delimiter {d : UInt8} (hd : d = comma ∨ d = closeParen) :
    isIdChar d = false ∧ d ≠ quote := by
  rcases hd with rfl | rfl <;> decide

theorem scan_names {reserved : Bytes → Bool} {ws : List Bytes} (hne : ws ≠ [])
    (hws : ∀ w ∈ ws, IsIdentifier reserved w) (rest : Bytes) :
    scanner.scan (enclosed comma closeParen ws ++ rest) = names ws ++ scanner.scan rest := by
  have hitem : ∀ x ∈ ws.map fun w => (w, Token.word w), ∀ d, d = comma ∨ d = closeParen →
      ∀ rest, scanner.scan (x.1 ++ d :: rest) = x.2 :: scanner.scan (d :: rest) := by
    simp only [List.forall_mem_map]
    intro w hw d hd rest
    exact scan_word (hws w hw).isWord (delimiter hd).1 rest
  have hscan := Scanner.scan_enclosed (@scan_symbol comma rfl) (@scan_symbol closeParen rfl)
    (by simpa using hne) hitem rest
  simpa [names, Function.comp_def] using hscan

theorem scan_literals {vs : List Bytes} (hne : vs ≠ []) (hvs : ∀ v ∈ vs, quote ∉ v)
    (rest : Bytes) :
    scanner.scan (enclosed comma closeParen (vs.map fun v => quote :: (v ++ [quote])) ++ rest) =
      literals vs ++ scanner.scan rest := by
  have hitem : ∀ x ∈ vs.map fun v => (quote :: (v ++ [quote]), Token.string v),
      ∀ d, d = comma ∨ d = closeParen →
      ∀ rest, scanner.scan (x.1 ++ d :: rest) = x.2 :: scanner.scan (d :: rest) := by
    simp only [List.forall_mem_map]
    intro v hv d hd rest
    exact scan_literal (hvs v hv) (delimiter hd).2 rest
  have hscan := Scanner.scan_enclosed (@scan_symbol comma rfl) (@scan_symbol closeParen rfl)
    (by simpa using hne) hitem rest
  simpa [literals, Function.comp_def] using hscan

/-! ## The length of a text and of its tokens -/

/-- A lower bound of the length of the text of a token: in a literal every quote is doubled. -/
def weight : Token → ℕ
  | .word w => w.length
  | .quoted _ => 1
  | .string v => 2 + v.length + v.count quote
  | .symbol _ => 1
  | .unterminated => 1

/-- The length of the text that a mode has read of its token. -/
def pending : Mode → ℕ
  | .start | .space | .lineComment | .blockComment | .blockStar => 0
  | .mark w | .word w => w.length
  | .literal v => 1 + v.length + v.count quote
  | .closing v => 2 + v.length + v.count quote
  | .quoted _ _ | .quotedClosing _ _ | .bracketed _ | .dash | .slash => 1
  | .blockOpen => 2

theorem sum_weight_literals {vs : List Bytes} (hne : vs ≠ []) :
    ((literals vs).map weight).sum = (vs.map fun v => 3 + v.length + v.count quote).sum := by
  have hsep : weight (.symbol comma) = 1 := rfl
  have hclose : weight (.symbol closeParen) = 1 := rfl
  rw [literals, sum_enclosed hsep hclose (by simpa using hne), List.map_map]
  congr 1
  refine List.map_congr_left fun v _ => ?_
  simp only [Function.comp_apply, List.map_cons, List.map_nil, List.sum_cons, List.sum_nil, weight]
  omega

theorem weight_first (b : UInt8) : ((first b).1.map weight).sum + pending (first b).2 ≤ 1 := by
  unfold first
  repeat' split
  all_goals simp [weight, pending]

theorem weight_complete (t : Token) (b : UInt8) :
    ((complete t b).1.map weight).sum + pending (complete t b).2 ≤ weight t + 1 := by
  have hfirst := weight_first b
  simp only [complete, List.map_cons, List.sum_cons]
  omega

/-- A mode that weighs as much as its token ends with it. -/
theorem weight_ended {m : Mode} {t : Token} {b : UInt8} (hm : weight t = pending m)
    (hnext : scanner.next m b = complete t b) :
    ((scanner.next m b).1.map weight).sum + pending (scanner.next m b).2 ≤ pending m + 1 := by
  rw [hnext, ← hm]
  exact weight_complete t b

/-- Comments weigh nothing. -/
theorem weight_inBlock (b : UInt8) : ((inBlock b).1.map weight).sum + pending (inBlock b).2 = 0 := by
  unfold inBlock
  split <;> rfl

/-- No mode forgets a character of a word or of a literal, and none counts one twice. -/
theorem weighs : scanner.Weighs weight pending where
  next m b := by
    cases m with
    | start => exact weight_first b
    | space =>
      by_cases hb : b = verticalTab
      · simp [scanner, next, hb, pending]
      · simpa [scanner, next, hb, pending] using weight_first b
    | mark w =>
      by_cases hb : w ++ [b] = byteOrderMark
      · simp [scanner, next, hb, pending]
      · by_cases hmark : w ++ [b] <+: byteOrderMark
        · simp [scanner, next, hb, hmark, pending]
        · by_cases hid : isIdChar b = true
          · simp [scanner, next, hb, hmark, hid, pending]
          · refine weight_ended (t := .word w) rfl ?_
            simp [scanner, next, hb, hmark, hid]
    | word w =>
      by_cases hb : isIdChar b = true
      · simp [scanner, next, hb, pending]
      · exact weight_ended rfl (if_neg hb)
    | literal v =>
      by_cases hb : b = quote
      · subst hb
        simp only [scanner, next, if_true, pending, List.map_nil, List.sum_nil]
        omega
      · simp only [scanner, next, pending, List.map_nil, List.sum_nil, List.length_append,
          List.length_singleton, List.count_append, List.count_singleton, beq_iff_eq, hb,
          if_false]
        omega
    | closing v =>
      by_cases hb : b = quote
      · -- the doubled quote is one character of the literal, and counts as two
        simp only [scanner, next, if_pos hb, pending, List.map_nil, List.sum_nil,
          List.length_append, List.length_singleton, List.count_append, List.count_singleton_self]
        omega
      · exact weight_ended rfl (if_neg hb)
    | quoted q v => by_cases hb : b = q.char <;> simp [scanner, next, hb, pending]
    | quotedClosing q v =>
      by_cases hb : b = q.char
      · simp [scanner, next, hb, pending]
      · exact weight_ended rfl (if_neg hb)
    | bracketed v => by_cases hb : b = closeBracket <;> simp [scanner, next, hb, pending, weight]
    | dash =>
      by_cases hb : b = dash
      · simp [scanner, next, hb, pending]
      · exact weight_ended rfl (if_neg hb)
    | lineComment => by_cases hb : b = newline <;> simp [scanner, next, hb, pending]
    | slash =>
      by_cases hb : b = star
      · simp [scanner, next, hb, pending]
      · exact weight_ended rfl (if_neg hb)
    | blockOpen => exact (weight_inBlock b).le.trans (Nat.zero_le _)
    | blockComment => exact (weight_inBlock b).le.trans (Nat.zero_le _)
    | blockStar =>
      by_cases hb : b = slash
      · simp [scanner, next, hb, pending]
      · simp only [scanner, next, if_neg hb]
        exact (weight_inBlock b).le.trans (Nat.zero_le _)
  finish m := by
    cases m with
    | literal v =>
      -- an unterminated literal counts as one, and its quote alone is that long
      simp only [scanner, finish, weight, pending, List.map_cons, List.map_nil, List.sum_cons,
        List.sum_nil]
      omega
    | _ => simp [scanner, finish, weight, pending]

end Sqlite

end SimpleChat
