import SimpleChat.Logger.Handlers
import SimpleChat.Text.Entries

/-!
# Reading a log

A log is the messages as text, each with a line break after it. Names and texts are written as they
are, so a log identifies who said what only if no name has a colon and a space in it and no text
has a line that reads as a message.

## Main definitions

* `Message.header`: the date and the name of a message, up to its text
* `transcript`: what a list of messages adds to a log
* `Splits`: a name that reads as a shorter name and the beginning of a text
* `IsHeader`: a text that reads as the beginning of a message
* `Plain`: the condition on a message, on its name and on its text

## Main results

* `transcript_injective`: plain messages can be told apart in a log
* `transcript_of_not_plain`: any other message reads as other messages do
-/

namespace SimpleChat

open Text

variable {localtime : Time → Tm}

namespace Message

/-- The text of a message up to what was said. -/
def header (localtime : Time → Tm) (m : Message) : Bytes :=
  m.getDate localtime ++ 32 :: (m.user.username ++ [58, 32])

/-- What a reader of the log wants to know of a message. -/
def entry (localtime : Time → Tm) (m : Message) : Bytes × Bytes × Bytes :=
  (m.getDate localtime, m.user.username, m.text)

theorem line_eq (m : Message) :
    Logger.line localtime m = m.header localtime ++ (m.text ++ [10]) := by
  simp [Logger.line, toString, header, bytes]

end Message

/-- What the messages add to a log, each written by `NewMessage`. -/
def transcript (localtime : Time → Tm) (ms : List Message) : Bytes :=
  ms.flatMap (Logger.line localtime)

theorem transcript_eq_written (ms : List Message) :
    transcript localtime ms = written 10 (ms.map fun m => (m.header localtime, m.text)) := by
  rw [transcript, written, List.flatMap_map]
  exact congrArg (List.flatMap · ms) (funext Message.line_eq)

/-- A colon and a space in the name, after its first byte. -/
def Splits (name : Bytes) : Prop := ∃ p q, p ≠ [] ∧ name = p ++ 58 :: 32 :: q

/-- The text is the header of some message, with a name that the server accepts and that does not
split. -/
def IsHeader (localtime : Time → Tm) (h : Bytes) : Prop :=
  ∃ m : Message, h = m.header localtime ∧ m.user.username ≠ [] ∧ 10 ∉ m.user.username ∧
    ¬ Splits m.user.username

/-- A message with an accepted name that does not split, and with a text in which nothing after a
line break reads as the beginning of a message. -/
structure Plain (localtime : Time → Tm) (m : Message) : Prop where
  nonempty : m.user.username ≠ []
  noBreak : 10 ∉ m.user.username
  unsplit : ¬ Splits m.user.username
  closed : Sealed (IsHeader localtime) 10 m.text

/-! ## Headers -/

/-- A date ends at its first closing bracket, and has no line break. -/
theorem getDate_eq_append (localtime : Time → Tm) (m : Message) :
    ∃ d, m.getDate localtime = d ++ [93] ∧ 93 ∉ d ∧ 10 ∉ d := by
  have hfree : ∀ z : ℤ, 93 ∉ decimalInt z ∧ 10 ∉ decimalInt z := fun z =>
    ⟨not_mem_decimalInt (by decide) (by decide) z, not_mem_decimalInt (by decide) (by decide) z⟩
  refine ⟨_, rfl, ?_, ?_⟩
  · simp [bytes, hfree]
  · simp [bytes, hfree]

theorem getDate_append_inj {m n : Message} {r r' : Bytes}
    (h : m.getDate localtime ++ r = n.getDate localtime ++ r') :
    m.getDate localtime = n.getDate localtime ∧ r = r' := by
  obtain ⟨d, hd, hdm, -⟩ := getDate_eq_append localtime m
  obtain ⟨e, he, hen, -⟩ := getDate_eq_append localtime n
  rw [hd, he, List.append_assoc, List.append_assoc] at h
  obtain ⟨rfl, hr⟩ := append_cons_inj hdm hen h
  exact ⟨hd.trans he.symm, hr⟩

/-- A name that does not split is not longer than one it begins like. -/
theorem eq_nil_of_not_splits {p c r r' : Bytes} (hp : p ≠ []) (hc : ¬ Splits (p ++ c))
    (h : 58 :: 32 :: r = c ++ 58 :: 32 :: r') : c = [] := by
  match c with
  | [] => rfl
  | [x] =>
    obtain ⟨-, hrest⟩ := List.cons.inj h
    exact absurd (List.cons.inj hrest).1 (by decide)
  | x :: y :: c =>
    obtain ⟨rfl, hrest⟩ := List.cons.inj h
    obtain ⟨rfl, -⟩ := List.cons.inj hrest
    exact absurd ⟨p, c, hp, rfl⟩ hc

/-- Names that do not split can be told apart before a colon and a space. -/
theorem name_append_inj {p q r r' : Bytes} (hp : p ≠ []) (hq : q ≠ []) (hps : ¬ Splits p)
    (hqs : ¬ Splits q) (h : p ++ 58 :: 32 :: r = q ++ 58 :: 32 :: r') : p = q := by
  rcases List.append_eq_append_iff.mp h with ⟨c, rfl, hr⟩ | ⟨c, rfl, hr⟩
  · rw [eq_nil_of_not_splits hp hqs hr, List.append_nil]
  · rw [eq_nil_of_not_splits hq hps hr, List.append_nil]

/-- A text begins with the header of one date and one name only. -/
theorem header_append_inj {m n : Message} {r r' : Bytes} (hm : m.user.username ≠ [])
    (hn : n.user.username ≠ []) (hms : ¬ Splits m.user.username)
    (hns : ¬ Splits n.user.username) (h : m.header localtime ++ r = n.header localtime ++ r') :
    m.getDate localtime = n.getDate localtime ∧ m.user.username = n.user.username := by
  simp only [Message.header, List.append_assoc, List.cons_append, List.nil_append] at h
  obtain ⟨hdate, hrest⟩ := getDate_append_inj h
  exact ⟨hdate, name_append_inj hm hn hms hns (List.cons.inj hrest).2⟩

theorem delimited_isHeader : Delimited (IsHeader localtime) 10 where
  free := by
    rintro h ⟨m, rfl, -, hbreak, -⟩
    obtain ⟨d, hd, -, hd10⟩ := getDate_eq_append localtime m
    simp [Message.header, hd, hd10, hbreak]
  eq_of_append := by
    rintro h h' r r' ⟨m, rfl, hm, -, hms⟩ ⟨n, rfl, hn, -, hns⟩ heq
    obtain ⟨hdate, hname⟩ := header_append_inj hm hn hms hns heq
    rw [Message.header, Message.header, hdate, hname]

/-- A header begins with the opening bracket of the date. -/
theorem exists_eq_bracket_cons {h : Bytes} (hh : IsHeader localtime h) : ∃ r, h = 91 :: r := by
  obtain ⟨m, rfl, -⟩ := hh
  exact ⟨_, rfl⟩

/-- Messages are plain whose name has no colon and whose text has no line that begins with a bracket,
the first line apart. -/
theorem plain_of_not_infix {m : Message} (hne : m.user.username ≠ [])
    (hbreak : 10 ∉ m.user.username) (hcolon : 58 ∉ m.user.username)
    (htext : ¬ [10, 91] <:+: m.text) : Plain localtime m where
  nonempty := hne
  noBreak := hbreak
  unsplit := by
    rintro ⟨p, q, -, hname⟩
    rw [hname] at hcolon
    exact hcolon (List.mem_append_right _ (List.mem_cons_self ..))
  closed := by
    intro u h v hbody hh
    obtain ⟨r, rfl⟩ := exists_eq_bracket_cons hh
    exact htext ⟨u, r ++ v, by simp [hbody]⟩

/-! ## Logs -/

/-- Headers and texts determine what a reader of the log wants to know. -/
theorem map_entry_eq {ms ns : List Message} (hms : ∀ m ∈ ms, Plain localtime m)
    (hns : ∀ n ∈ ns, Plain localtime n)
    (h : (ms.map fun m => (m.header localtime, m.text)) =
      ns.map fun n => (n.header localtime, n.text)) :
    ms.map (Message.entry localtime) = ns.map (Message.entry localtime) := by
  induction ms generalizing ns with
  | nil => rw [List.map_eq_nil_iff.mp h.symm]
  | cons m ms ih =>
    cases ns with
    | nil => cases h
    | cons n ns =>
      simp only [List.map_cons, List.cons.injEq, Prod.mk.injEq] at h
      obtain ⟨⟨hhead, htext⟩, hrest⟩ := h
      obtain ⟨hm, hms⟩ := List.forall_mem_cons.mp hms
      obtain ⟨hn, hns⟩ := List.forall_mem_cons.mp hns
      obtain ⟨hdate, hname⟩ := header_append_inj hm.nonempty hn.nonempty hm.unsplit hn.unsplit
        (congrArg (· ++ []) hhead)
      rw [List.map_cons, List.map_cons, ih hms hns hrest]
      simp only [Message.entry, hdate, hname, htext]

/-- **Plain messages can be told apart in a log**: equal logs have the same dates, names and texts,
message by message. -/
theorem transcript_injective {ms ns : List Message} (hms : ∀ m ∈ ms, Plain localtime m)
    (hns : ∀ n ∈ ns, Plain localtime n) (h : transcript localtime ms = transcript localtime ns) :
    ms.length = ns.length ∧ ms.map (Message.entry localtime) = ns.map (Message.entry localtime) := by
  have hentry : ∀ {xs : List Message}, (∀ m ∈ xs, Plain localtime m) →
      ∀ e ∈ xs.map fun m => (m.header localtime, m.text),
        IsHeader localtime e.1 ∧ Sealed (IsHeader localtime) 10 e.2 := by
    intro xs hxs e he
    obtain ⟨m, hm, rfl⟩ := List.mem_map.mp he
    obtain ⟨hne, hbreak, hunsplit, hclosed⟩ := hxs m hm
    exact ⟨⟨m, rfl, hne, hbreak, hunsplit⟩, hclosed⟩
  rw [transcript_eq_written, transcript_eq_written] at h
  have hmap := written_injective delimited_isHeader (hentry hms) (hentry hns) h
  exact ⟨by simpa using congrArg List.length hmap, map_entry_eq hms hns hmap⟩

/-- One message with a line break and a line like another message in its text, and the two messages
it reads as. -/
def forgedLine : List Message :=
  [⟨.ofUsername (bytes "eve"), bytes "hi\n[1970-0-1 0:0:0] bob: bye", 0⟩]

def forgedReading : List Message :=
  [⟨.ofUsername (bytes "eve"), bytes "hi", 0⟩, ⟨.ofUsername (bytes "bob"), bytes "bye", 0⟩]

/-- A name with a colon and a space in it, and the message it reads as. -/
def splitName : List Message := [⟨.ofUsername (bytes "bob: no"), bytes "yes", 0⟩]

def splitReading : List Message := [⟨.ofUsername (bytes "bob"), bytes "no: yes", 0⟩]

/-- Accepted names and texts that make a log with two readings. -/
theorem transcripts_with_two_readings :
    (∀ m ∈ forgedLine ++ forgedReading ++ splitName ++ splitReading,
        m.user.username ≠ [] ∧ 10 ∉ m.user.username) ∧
      transcript (wholeHours 0) forgedLine = transcript (wholeHours 0) forgedReading ∧
      forgedLine.length ≠ forgedReading.length ∧
      transcript (wholeHours 0) splitName = transcript (wholeHours 0) splitReading ∧
      splitName.map (Message.entry (wholeHours 0)) ≠
        splitReading.map (Message.entry (wholeHours 0)) := by
  refine ⟨by decide, by decide, by decide, by decide, ?_⟩
  simp only [splitName, splitReading, List.map_cons, Message.entry, ne_eq, List.cons.injEq,
    Prod.mk.injEq]
  decide

/-- Two messages, one of them with a line break that no header follows, and the messages of other users
under the same names. -/
def bobs : List Message × List Message :=
  ([⟨.ofUsername (bytes "bob"), bytes "hi\n(all)", 0⟩, ⟨.ofUsername (bytes "eve"), bytes "bye", 1⟩],
    [⟨.ofConnection (bytes "bob") (bytes "10.0.0.1") 50000, bytes "hi\n(all)", 0⟩,
      ⟨.ofConnection (bytes "eve") (bytes "10.0.0.2") 50001, bytes "bye", 1⟩])

theorem transcript_injective_bobs :
    bobs.1.length = bobs.2.length ∧
      bobs.1.map (Message.entry (wholeHours 0)) = bobs.2.map (Message.entry (wholeHours 0)) := by
  have hall : ∀ m ∈ bobs.1 ++ bobs.2, m.user.username ≠ [] ∧ 10 ∉ m.user.username ∧
      58 ∉ m.user.username ∧ ¬ [10, 91] <:+: m.text := by decide
  have hplain : ∀ m ∈ bobs.1 ++ bobs.2, Plain (wholeHours 0) m := by
    intro m hm
    obtain ⟨hne, hbreak, hcolon, htext⟩ := hall m hm
    exact plain_of_not_infix hne hbreak hcolon htext
  refine transcript_injective (fun m hm => ?_) (fun m hm => ?_) (by decide)
  · exact hplain m (List.mem_append_left _ hm)
  · exact hplain m (List.mem_append_right _ hm)

/-- A message that is not plain reads as messages with other names or texts. -/
theorem transcript_of_not_plain {m : Message} (hne : m.user.username ≠ [])
    (hbreak : 10 ∉ m.user.username) (h : ¬ Plain localtime m) :
    ∃ ns : List Message, (∀ n ∈ ns, n.user.username ≠ [] ∧ 10 ∉ n.user.username) ∧
      transcript localtime ns = transcript localtime [m] ∧
      ns.map (Message.entry localtime) ≠ [m].map (Message.entry localtime) := by
  by_cases hsplit : Splits m.user.username
  · -- the second part of the name reads as the beginning of the text
    obtain ⟨p, q, hp, hname⟩ := hsplit
    have hpbreak : 10 ∉ p := fun hmem => hbreak (hname ▸ List.mem_append_left _ hmem)
    refine ⟨[⟨.ofUsername p, q ++ 58 :: 32 :: m.text, m.msgTimestamp⟩], ?_, ?_, ?_⟩
    · simpa [User.ofUsername] using ⟨hp, hpbreak⟩
    · simp [transcript, Message.line_eq, Message.header, Message.getDate, User.ofUsername, hname]
    · simp [Message.entry, User.ofUsername, hname]
  · -- the text reads as a text and another message
    have hclosed : ¬ Sealed (IsHeader localtime) 10 m.text := fun hs => h ⟨hne, hbreak, hsplit, hs⟩
    obtain ⟨u, h', v, ⟨n, rfl, hn, hnbreak, -⟩, hwritten⟩ :=
      written_of_not_sealed hclosed (m.header localtime)
    refine ⟨[⟨m.user, u, m.msgTimestamp⟩, ⟨n.user, v, n.msgTimestamp⟩], ?_, ?_, ?_⟩
    · simpa using ⟨⟨hne, hbreak⟩, hn, hnbreak⟩
    · rw [transcript_eq_written, transcript_eq_written]
      exact hwritten.symm
    · simp

end SimpleChat
