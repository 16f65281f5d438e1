import SimpleChat.Text.Trim
import SimpleChat.WebsocketServer.Handlers

/-!
# Kicking a user from the console

The console removes white space, in the sense of the C locale, from both ends of the name that is
typed in. The server takes a name as the websocket library hands it over, which has only spaces and
tabs removed. A name that begins or ends with other white space connects, but cannot be kicked.

## Main definitions

* `StringTrim.trim`: the function of the string library of the console
* `ConsoleApp.kickUser`, `RestServer.handlerKickUser`: the request of the console, and the event that
  the server makes of it
* `AcceptedName`: the names the server accepts
* `KickNames line n`: the line typed in leads to an event that names `n`
* `PlainEnds`: the condition on a name

## Main results

* `acceptedName_of_validateHandler`: the names of accepted connections
* `kickNames_iff`: a padded name is kicked exactly if its ends are plain
-/

namespace SimpleChat

open Text

/-- `isspace` of the C locale: the space, and the codes from tab to carriage return. -/
def isspace (ch : UInt8) : Bool := decide (ch = 32 ∨ 9 ≤ ch ∧ ch ≤ 13)

namespace StringTrim

def ltrim (s : Bytes) : Bytes := s.dropWhile isspace

def rtrim (s : Bytes) : Bytes := s.rdropWhile isspace

def trim (s : Bytes) : Bytes := ltrim (rtrim s)

theorem trim_eq (s : Bytes) : trim s = Text.trim isspace s := rfl

end StringTrim

/-- The message `kick_user::KickUser`. -/
structure KickUserMessage where
  username : Option Bytes
  deriving DecidableEq, Repr

/-- The body of the request of `RestApiClient::KickUser`. -/
def RestApiClient.kickUser (username : Bytes) : KickUserMessage := ⟨some username⟩

/-- What `KickUser` requests when a line is typed in, if anything. -/
def ConsoleApp.kickUser (line : Bytes) : Option KickUserMessage :=
  let username := StringTrim.trim line
  if ¬ username.isEmpty then some (RestApiClient.kickUser username) else none

/-- The event that `Handler_KickUser` sends; a field that is not set reads as the empty string. -/
def RestServer.handlerKickUser (message : KickUserMessage) : Event :=
  .disconnectUser (.ofUsername (message.username.getD []))

/-- The line leads to a request, whose event names `n`. -/
def KickNames (line n : Bytes) : Prop :=
  ∃ message, ConsoleApp.kickUser line = some message ∧
    RestServer.handlerKickUser message = .disconnectUser (.ofUsername n)

/-! ## The names the server accepts -/

/-- The value of a header as the websocket library hands it over: without the spaces and the tabs
around it. -/
def headerValue (raw : Bytes) : Bytes := Text.trim (fun ch => decide (ch = 32 ∨ ch = 9)) raw

/-- A name that is not empty, has no line break and came out of a header. -/
structure AcceptedName (n : Bytes) : Prop where
  nonempty : n ≠ []
  noBreak : 10 ∉ n
  header : ∃ raw, n = headerValue raw

/-- The name of a connection that `ValidateHandler` accepts. -/
theorem acceptedName_of_validateHandler {Hdl : Type} [LinearOrder Hdl] {s : WebsocketServer Hdl}
    {hdl : Hdl} {req : Request} {raw : Bytes} (hvalue : req.usernameHeader = headerValue raw)
    (hbreak : 10 ∉ raw) (h : (s.validateHandler hdl req).2 = true) :
    AcceptedName req.usernameHeader where
  nonempty := (WebsocketServer.validateHandler_snd.mp h).1
  noBreak hmem := by
    rw [hvalue] at hmem
    have hsub : ∀ x ∈ headerValue raw, x ∈ raw := fun x hx =>
      (List.rdropWhile_prefix _ _).subset ((List.dropWhile_suffix _).subset hx)
    exact hbreak (hsub 10 hmem)
  header := ⟨raw, hvalue⟩

/-! ## Names that can be kicked -/

/-- White space without a line break. -/
def Padding (a : Bytes) : Prop := ∀ x ∈ a, isspace x = true ∧ x ≠ 10

instance decidablePadding (a : Bytes) : Decidable (Padding a) :=
  List.decidableBAll (fun x => isspace x = true ∧ x ≠ 10) a

/-- The name neither begins nor ends with a vertical tab, a form feed or a carriage return. -/
def PlainEnds (n : Bytes) : Prop := Trimmed (fun ch => decide (11 ≤ ch ∧ ch ≤ 13)) n

instance decidablePlainEnds (n : Bytes) : Decidable (PlainEnds n) :=
  inferInstanceAs (Decidable (Trimmed _ n))

theorem isspace_iff {ch : UInt8} :
    isspace ch = true ↔ ch = 32 ∨ ch = 9 ∨ ch = 10 ∨ 11 ≤ ch ∧ ch ≤ 13 := by
  simp only [isspace, decide_eq_true_iff, UInt8.le_iff_toNat_le, ← UInt8.toNat_inj]
  simp only [UInt8.reduceToNat]
  omega

/-- The console and the websocket library differ on the ends of a name only if these are not
plain. -/
theorem trimmed_isspace_iff {n : Bytes} (hn : AcceptedName n) :
    Trimmed isspace n ↔ PlainEnds n := by
  constructor
  · intro h
    refine h.mono fun x _ hx => ?_
    exact isspace_iff.mpr (.inr (.inr (.inr (of_decide_eq_true hx))))
  · intro h
    obtain ⟨raw, hraw⟩ := hn.header
    have hblank : Trimmed (fun ch => decide (ch = 32 ∨ ch = 9)) n := hraw ▸ trimmed_trim _ raw
    -- white space at an end is none of space and tab, and no line break either
    have hend : ∀ x ∈ n, decide (x = 32 ∨ x = 9) = false →
        decide (11 ≤ x ∧ x ≤ 13) = false → isspace x = false := by
      intro x hx hb hp
      by_contra hs
      rcases isspace_iff.mp (by simpa using hs) with h32 | h9 | h10 | hrange
      · exact of_decide_eq_false hb (.inl h32)
      · exact of_decide_eq_false hb (.inr h9)
      · exact hn.noBreak (h10 ▸ hx)
      · exact of_decide_eq_false hp hrange
    exact ⟨fun x hx => hend x (List.mem_of_mem_head? hx) (hblank.1 x hx) (h.1 x hx),
      fun x hx => hend x (List.mem_of_mem_getLast? hx) (hblank.2 x hx) (h.2 x hx)⟩

/-- A line leads to the kick of a name exactly if the name is what is left of it. -/
theorem kickNames_iff_trim {line n : Bytes} (hn : n ≠ []) :
    KickNames line n ↔ StringTrim.trim line = n := by
  rw [KickNames, ConsoleApp.kickUser]
  by_cases hempty : StringTrim.trim line = []
  · simp [hempty, hn.symm]
  · simp [hempty, RestApiClient.kickUser, RestServer.handlerKickUser, User.ofUsername]

/-- **An accepted name is kicked, whatever the padding, exactly if its ends are plain.** -/
theorem kickNames_iff {n a b : Bytes} (hn : AcceptedName n) (ha : Padding a) (hb : Padding b) :
    KickNames (a ++ n ++ b) n ↔ PlainEnds n := by
  rw [kickNames_iff_trim hn.nonempty, StringTrim.trim_eq,
    trim_padded_iff (fun x hx => (ha x hx).1) fun x hx => (hb x hx).1, trimmed_isspace_iff hn]

/-- A name that begins with a vertical tab. -/
def tabbedBob : Bytes := 11 :: bytes "bob"

theorem acceptedName_tabbedBob : AcceptedName tabbedBob :=
  ⟨by decide, by decide, tabbedBob, by decide⟩

/-- The name connects, but the kick of it names another one. -/
theorem tabbedBob_cannot_be_kicked :
    AcceptedName tabbedBob ∧
      ((WebsocketServer.init : WebsocketServer ℕ).validateHandler 1
        ⟨tabbedBob, ⟨bytes "10.0.0.1", none⟩, 50000⟩).2 = true ∧
      KickNames tabbedBob (bytes "bob") ∧ ¬ KickNames ([] ++ tabbedBob ++ []) tabbedBob := by
  refine ⟨acceptedName_tabbedBob, by decide, ?_, fun h => ?_⟩
  · exact (kickNames_iff_trim (by decide)).mpr (by decide)
  · exact absurd ((kickNames_iff_trim (by decide)).mp h) (by decide)

theorem kickNames_tabbedBob :
    KickNames ([32] ++ tabbedBob ++ []) tabbedBob ↔ PlainEnds tabbedBob :=
  kickNames_iff acceptedName_tabbedBob (by decide) (by decide)

end SimpleChat
