import SimpleChat.Common.Message
import SimpleChat.Server.Delivery
import SimpleChat.Transition.Network
import Mathlib.Data.List.TakeWhile

/-!
# The windows of the clients

A client adds each message that arrives to the text of its window, under a mutex. A binary message
is no text: adding it raises an exception while the mutex is held, and nothing is added after it.
What a window shows of each connection of its client is an initial part of what the server sent on
the connection, in every order of the steps of the server and of the arrivals.

## Main definitions

* `ChatUI`, `ChatUI.wsOnMessage`: the window and the mutex of a client, and what a message does
* `ChatUI.receive`: a message that arrives on a connection, at the client of the connection
* `ChatUI.Clients`: the server, the connections and the clients

## Main results

* `ChatUI.run_wsOnMessage`: the text of a window, and when its mutex stays held
* `ChatUI.window_in_order`: what a window shows
-/

namespace SimpleChat

open Transition

/-- A message as the websocket library of the client hands it over: a text as `str`, a binary message
as `bytes`. -/
structure Frame where
  payload : Bytes
  opcode : Opcode
  deriving DecidableEq, Repr

/-- The text with the tag `ChatWindowText`, and whether the mutex is held. -/
structure ChatUI where
  chatWindowText : Bytes
  mutex : Bool
  deriving DecidableEq, Repr

namespace ChatUI

def init : ChatUI := ⟨[], false⟩

/-- `_WsOnMessage`, which waits while the mutex is held. Adding `bytes` to a `str` raises an
exception, so the mutex is not released. -/
def wsOnMessage (ui : ChatUI) (message : Frame) : Option ChatUI :=
  if ui.mutex then none
  else match message.opcode with
    | .text => some { ui with chatWindowText := ui.chatWindowText ++ 10 :: message.payload }
    | .binary => some { ui with mutex := true }

/-- The text of messages, each on a line of its own. -/
def lines (messages : List Frame) : Bytes := messages.flatMap fun m => 10 :: m.payload

/-- The message is a text. -/
def isText (message : Frame) : Bool := message.opcode = .text

/-- A window shows the messages before the first binary one, which leaves the mutex held. -/
theorem run_wsOnMessage {messages : List Frame} {ui : ChatUI}
    (h : run wsOnMessage init messages = some ui) :
    ui.chatWindowText = lines (messages.takeWhile isText) ∧
      (ui.mutex = false ↔ ∀ m ∈ messages, isText m = true) := by
  refine run_history_induction (P := fun ms ui => ui.chatWindowText = lines (ms.takeWhile isText) ∧
    (ui.mutex = false ↔ ∀ m ∈ ms, isText m = true)) ⟨rfl, by simp [init]⟩ ?_ h
  intro ms ui m ui' _ ⟨htext, hmutex⟩ hstep
  rw [wsOnMessage, Option.ite_none_left_eq_some] at hstep
  obtain ⟨hfree, hstep⟩ := hstep
  have hall : ∀ x ∈ ms, isText x = true := hmutex.mp (by simpa using hfree)
  have htake : ms.takeWhile isText = ms := List.takeWhile_eq_self_iff.mpr hall
  rw [htake] at htext
  cases hm : m.opcode with
  | text =>
    rw [hm] at hstep
    obtain rfl := Option.some.inj hstep
    have hm' : isText m = true := by simp [isText, hm]
    have hall' : ∀ x ∈ ms ++ [m], isText x = true := by
      simpa [or_imp, forall_and] using ⟨hall, hm'⟩
    rw [List.takeWhile_eq_self_iff.mpr hall']
    exact ⟨by simp [lines, htext], iff_of_true (by simpa using hfree) hall'⟩
  | binary =>
    rw [hm] at hstep
    obtain rfl := Option.some.inj hstep
    have hm' : ¬ isText m = true := by simp [isText, hm]
    refine ⟨?_, iff_of_false (by simp) fun hall' => hm' (hall' m (by simp))⟩
    rw [List.takeWhile_append_of_pos hall]
    simpa [hm'] using htext

/-! ## Clients and the server -/

variable {Hdl C : Type} [DecidableEq C]

/-- A message that arrives on a connection is handled by the client that opened it. -/
def receive (localtime : Time → Tm) (client : Hdl → C) (uis : C → ChatUI) (x : Hdl × Send Hdl) :
    Option (C → ChatUI) :=
  ((uis (client x.1)).wsOnMessage ⟨x.2.message.toString localtime, x.2.opcode⟩).map fun ui =>
    Function.update uis (client x.1) ui

/-- A client handles the messages of its connections. -/
theorem run_receive {localtime : Time → Tm} {client : Hdl → C} {uis uis' : C → ChatUI}
    {xs : List (Hdl × Send Hdl)} (h : run (receive localtime client) uis xs = some uis') (c : C) :
    run wsOnMessage (uis c) ((xs.filter fun x => client x.1 = c).map fun x =>
      ⟨x.2.message.toString localtime, x.2.opcode⟩) = some (uis' c) := by
  refine run_history_induction (P := fun xs uis' => run wsOnMessage (uis c)
    ((xs.filter fun x => client x.1 = c).map fun x =>
      (⟨x.2.message.toString localtime, x.2.opcode⟩ : Frame)) = some (uis' c)) rfl ?_ h
  intro xs v x v' _ ih hstep
  obtain ⟨ui, hui, rfl⟩ := Option.map_eq_some_iff.mp hstep
  rw [List.filter_append, List.map_append, run_append_eq_some]
  refine ⟨v c, ih, ?_⟩
  by_cases hc : client x.1 = c
  · subst hc
    simpa using hui
  · have hne : c ≠ client x.1 := Ne.symm hc
    simp [hc, run, Function.update_of_ne hne]

variable [LinearOrder Hdl]

/-- The server, what is on its way to the clients, and the clients. On a connection that is lost,
nothing arrives any more. -/
abbrev Clients (Hdl C : Type) [LinearOrder Hdl] : Type :=
  Network (System Hdl) Hdl (Send Hdl) (C → ChatUI)

namespace Clients

def init (now : Time) : Clients Hdl C := Network.init (System.init now) fun _ => ChatUI.init

def step (localtime : Time → Tm) (client : Hdl → C) :
    Clients Hdl C → Network.Label (Action Hdl) Hdl → Option (Clients Hdl C) :=
  Network.step System.step (fun hdl s => s.sentTo hdl) (receive localtime client)

end Clients

/-- The window of a client shows some messages, each with the connection on which it arrived. -/
structure Shows (localtime : Time → Tm) (client : Hdl → C) (now : Time)
    (as : List (Network.Label (Action Hdl) Hdl)) (n : Clients Hdl C) (c : C)
    (shown : List (Hdl × Message)) : Prop where
  text : (n.receiver c).chatWindowText = shown.flatMap fun x => 10 :: x.2.toString localtime
  own : ∀ x ∈ shown, client x.1 = c
  in_order : ∀ hdl, ((shown.filter fun x => x.1 = hdl).map Prod.snd) <+:
    (System.init now).delivered (Network.sends as) hdl
  complete : (n.receiver c).mutex = false → ∀ hdl, client hdl = c → n.inFlight hdl = [] →
    ((shown.filter fun x => x.1 = hdl).map Prod.snd) =
      (System.init now).delivered (Network.sends as) hdl

/-- **A window shows, of each connection of its client, an initial part of the messages that the
server sent on it, in their order**, and all of them if nothing is in flight and no binary message
arrived. -/
theorem window_in_order {localtime : Time → Tm} {client : Hdl → C} {now : Time}
    {as : List (Network.Label (Action Hdl) Hdl)} {n : Clients Hdl C}
    (hrun : run (Clients.step localtime client) (Clients.init now) as = some n) (c : C) :
    ∃ shown, Shows localtime client now as n c shown := by
  obtain ⟨xs, hxs⟩ : ∃ xs, xs = Network.arrivals System.step (fun hdl s => s.sentTo hdl)
    (receive localtime client) (Clients.init now) as := ⟨_, rfl⟩
  have hreceiver : run (receive localtime client) (fun _ => init) xs = some n.receiver :=
    hxs ▸ Network.run_receiver hrun
  have hchannel : ∀ hdl, (xs.filter fun x => x.1 = hdl).map Prod.snd ++ n.inFlight hdl =
      (System.init now).sends (Network.sends as) hdl := fun hdl =>
    hxs ▸ Network.arrived_append_inFlight hrun hdl
  obtain ⟨htext, hmutex⟩ := run_wsOnMessage (run_receive hreceiver c)
  let frame : Hdl × Send Hdl → Frame := fun x => ⟨x.2.message.toString localtime, x.2.opcode⟩
  let own : List (Hdl × Send Hdl) := xs.filter fun x => client x.1 = c
  have hown : ∀ hdl, client hdl = c → (own.filter fun x => x.1 = hdl) = xs.filter fun x => x.1 = hdl := by
    rintro hdl rfl
    rw [List.filter_filter]
    refine List.filter_congr fun x _ => ?_
    by_cases hx : x.1 = hdl <;> simp [hx]
  have hdelivered : ∀ hdl, (System.init now).delivered (Network.sends as) hdl =
      ((xs.filter fun x => x.1 = hdl).map fun x => x.2.message) ++
        (n.inFlight hdl).map Send.message := by
    intro hdl
    rw [System.delivered, ← hchannel hdl, List.map_append, List.map_map]
    rfl
  have hshown : ∀ l : List (Hdl × Send Hdl), ∀ hdl,
      (((l.map fun x => (x.1, x.2.message)).filter fun x => x.1 = hdl).map Prod.snd) =
        (l.filter fun x => x.1 = hdl).map fun x => x.2.message := by
    intro l hdl
    rw [List.filter_map, List.map_map]
    rfl
  refine ⟨(own.takeWhile (isText ∘ frame)).map fun x => (x.1, x.2.message), ?_, ?_, ?_, ?_⟩
  · rw [htext, List.takeWhile_map, lines, List.flatMap_map, List.flatMap_map]
  · intro x hx
    obtain ⟨y, hy, rfl⟩ := List.mem_map.mp hx
    exact of_decide_eq_true (List.mem_filter.mp ((List.takeWhile_prefix _).subset hy)).2
  · intro hdl
    rw [hshown, hdelivered]
    have hpre : (((own.takeWhile (isText ∘ frame)).filter fun x => x.1 = hdl).map
        fun x => x.2.message) <+: (own.filter fun x => x.1 = hdl).map fun x => x.2.message :=
      ((List.takeWhile_prefix _).filter _).map _
    by_cases hc : client hdl = c
    · rw [hown hdl hc] at hpre
      exact hpre.trans (List.prefix_append _ _)
    · have hnil : (own.filter fun x => x.1 = hdl) = [] := by
        rw [List.filter_eq_nil_iff]
        intro x hx heq
        obtain rfl : x.1 = hdl := of_decide_eq_true heq
        exact hc (of_decide_eq_true (List.mem_filter.mp hx).2)
      rw [hnil] at hpre
      exact List.prefix_nil.mp hpre ▸ List.nil_prefix
  · intro hfree hdl hc hempty
    have hall : ∀ x ∈ own, (isText ∘ frame) x = true := fun x hx =>
      hmutex.mp hfree (frame x) (List.mem_map_of_mem hx)
    rw [hshown, hdelivered, hempty, List.takeWhile_eq_self_iff.mpr hall, hown hdl hc, List.map_nil,
      List.append_nil]

/-- Two clients join, one sends a message, and it arrives at both. -/
def greeting : List (Network.Label (Action ℕ) ℕ) :=
  (System.openingRun.map .send) ++
    [.send (.call (.messageHandler 1 ⟨bytes "hello", .text⟩)), .arrive 2, .arrive 1]

theorem greeting_runs : (run (Clients.step (C := ℕ) (SimpleChat.localtime 0) id) (Clients.init 0)
    greeting).isSome = true := by decide

/-- The server and the clients after the greeting. -/
def greeted : Clients ℕ ℕ :=
  (run (Clients.step (SimpleChat.localtime 0) id) (Clients.init 0) greeting).get greeting_runs

theorem greeting_shown : ∃ shown, Shows (SimpleChat.localtime 0) id 0 greeting greeted 2 shown :=
  window_in_order (Option.some_get _).symm 2

end ChatUI

end SimpleChat
