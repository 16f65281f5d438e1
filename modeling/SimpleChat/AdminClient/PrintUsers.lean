import SimpleChat.Protobuf.ConnectedUsers
import SimpleChat.Protobuf.WireFormat
import SimpleChat.Text.Decimal

/-!
# The users on the console

The console requests the connected users and prints a line for each: its name, its address and how
long it has been online.

## Main definitions

* `AdminClient.ReturnType`: the return codes of the console
* `RestApiClient.getUsers`: the users in the answer of the server
* `ConsoleApp.Listed`, `ConsoleApp.listing`: what is shown of a user, and of some users
* `ConsoleApp.timeOnline`, `ConsoleApp.line`, `ConsoleApp.printUsers`: what is printed

## Main results

* `ConsoleApp.onlineTime_eq`: the time online is the difference of the times
* `ConsoleApp.listing_of_printUsers`: what was shown of every user can be told from what was printed
-/

namespace SimpleChat

open Protobuf Text

/-- `eReturnType_t` of the console. -/
inductive AdminClient.ReturnType where
  | ok
  | notOk
  | noLoggedUsers
  | invalid
  deriving DecidableEq, Repr

/-- What `cpr::Post` returns. -/
structure HttpResponse where
  statusCode : ℤ
  text : Bytes
  deriving DecidableEq, Repr

namespace RestApiClient

/-- `Post`: the text of the answer, if its status is 200. -/
def post (r : HttpResponse) : AdminClient.ReturnType × Bytes :=
  if r.statusCode = 200 then (.ok, r.text) else (.notOk, [])

/-- `GetUsers`. The result of `ParseFromString` is not looked at; where it fails, the message holds
what it left there. -/
def getUsers {R : Runtime} (dataAvailable : Bytes → Bool) (leftover : Bytes → ConnectedUsers R)
    (r : HttpResponse) : AdminClient.ReturnType × ConnectedUsers R :=
  let (ret, res) := post r
  if ret = .ok then
    (ret, (ConnectedUsers.parseFromString dataAvailable res).getD (leftover res))
  else (ret, ConnectedUsers.empty)

end RestApiClient

namespace ConsoleApp

variable {R : Runtime}

/-- `time(nullptr) - user.joined_timestamp()`: a difference of `uint64_t`, as a `time_t`. -/
def onlineTime (now : Time) (joined : UInt64) : Time := (UInt64.ofInt now - joined).toInt64.toInt

/-- The text `t` of `PrintUsers`. -/
def timeOnline (diff : Time) : Bytes :=
  bytes "Time online " ++ (decimalInt (diff.tdiv 3600) ++ bytes "h:" ++
    (decimalInt ((diff.tmod 3600).tdiv 60) ++ bytes "m:" ++
      (decimalInt (diff.tmod 60) ++ bytes "s")))

/-- What a line shows of a user. -/
structure Listed where
  username : Bytes
  ip : Bytes
  port : UInt32
  diff : Time
  deriving DecidableEq, Repr

/-- What is shown of a user; fields that are not set read as their defaults. -/
def listed (now : Time) (user : Protobuf.User R) : Listed where
  username := user.username.getD []
  ip := user.ip.getD []
  port := user.port.getD 0
  diff := onlineTime now (user.joinedTimestamp.getD 0)

/-- A line of `PrintUsers`, without its end. -/
def line (l : Listed) : Bytes :=
  l.username ++ bytes " | " ++ (l.ip ++ bytes ":" ++ decimal l.port.toNat ++ bytes " | ") ++
    timeOnline l.diff

/-- What is shown of some users, where the clock shows `now i` at the line of the `i`-th. -/
def listing (now : ℕ → Time) (users : List (Protobuf.User R)) : List Listed :=
  users.mapIdx fun i user => listed (now i) user

/-- The lines, each with its end. -/
def printed (ls : List Listed) : Bytes := (ls.map line).flatMap (· ++ [10])

/-- `PrintUsers`, where the clock shows `now i` at the line of the `i`-th user. -/
def printUsers (dataAvailable : Bytes → Bool) (leftover : Bytes → ConnectedUsers R)
    (now : ℕ → Time) (r : HttpResponse) : AdminClient.ReturnType × Bytes :=
  let (ret, connUsers) := RestApiClient.getUsers dataAvailable leftover r
  if ret = .ok then
    if connUsers.users.length > 0 then
      (ret, printed (listing now connUsers.users))
    else (.noLoggedUsers, [])
  else (ret, [])

theorem printUsers_of_ok {dataAvailable : Bytes → Bool} {leftover : Bytes → ConnectedUsers R}
    {now : ℕ → Time} {r : HttpResponse}
    (h : (printUsers dataAvailable leftover now r).1 = .ok) :
    (printUsers dataAvailable leftover now r).2 =
      printed (listing now (RestApiClient.getUsers dataAvailable leftover r).2.users) := by
  unfold printUsers at h ⊢
  simp only at h ⊢
  split at h
  · next hret =>
    split at h
    · next hlen => rw [if_pos hret, if_pos hlen]
    · cases h
  · next hret => exact absurd h hret

/-- The console prints something exactly if it has users to list. -/
theorem printUsers_ok_iff {dataAvailable : Bytes → Bool} {leftover : Bytes → ConnectedUsers R}
    {now : ℕ → Time} {r : HttpResponse} :
    (printUsers dataAvailable leftover now r).1 = .ok ↔
      (printUsers dataAvailable leftover now r).2 ≠ [] := by
  unfold printUsers
  simp only
  split
  · next hret =>
    split
    · next hlen =>
      obtain ⟨user, users, husers⟩ := List.exists_cons_of_length_pos hlen
      simp [hret, husers, printed, listing]
    · simp
  · next hret => simp [hret]

/-! ## The time online -/

theorem toInt64_ofInt (z : ℤ) : (UInt64.ofInt z).toInt64 = Int64.ofInt z := by
  rw [UInt64.ofInt, UInt64.toInt64_ofNat', ← Int64.ofInt_eq_ofNat,
    Int.toNat_of_nonneg (Int.emod_nonneg _ (by decide))]
  apply Int64.toInt_inj.mp
  rw [Int64.toInt_ofInt, Int64.toInt_ofInt]
  exact Int.emod_bmod z _

/-- The time online is the difference of the times, as long as it fits a `time_t`. -/
theorem onlineTime_eq {now joined : Time} (hlo : -2 ^ 63 ≤ now - joined)
    (hhi : now - joined < 2 ^ 63) : onlineTime now (UInt64.ofInt joined) = now - joined := by
  have hsub : UInt64.ofInt now - UInt64.ofInt joined = UInt64.ofInt (now - joined) := by
    rw [Int.sub_eq_add_neg, UInt64.ofInt_add, UInt64.ofInt_neg, UInt64.sub_eq_add_neg]
  rw [onlineTime, hsub, toInt64_ofInt]
  exact Int64.toInt_ofInt_of_le hlo hhi

/-- A duration is determined by its hours, minutes and seconds. -/
theorem duration_eq (d : Time) :
    3600 * d.tdiv 3600 + 60 * (d.tmod 3600).tdiv 60 + d.tmod 60 = d := by
  have hhours := Int.mul_tdiv_add_tmod d 3600
  have hminutes := Int.mul_tdiv_add_tmod (d.tmod 3600) 60
  have hseconds : (d.tmod 3600).tmod 60 = d.tmod 60 := Int.tmod_tmod_of_dvd d (by decide)
  omega

theorem timeOnline_injective : Function.Injective timeOnline := by
  intro d d' h
  have hunits : bytes "h:" = [104, 58] ∧ bytes "m:" = [109, 58] ∧ bytes "s" = [115] := by decide
  obtain ⟨hh, hm, hs⟩ := hunits
  have htexts := List.append_cancel_left h
  simp only [hh, hm, hs, List.append_assoc, List.cons_append, List.nil_append] at htexts
  obtain ⟨hhours, hrest⟩ := decimalInt_append_inj (by decide) htexts
  obtain ⟨hminutes, hrest⟩ := decimalInt_append_inj (by decide) (List.cons.inj hrest).2
  obtain ⟨hseconds, -⟩ := decimalInt_append_inj (by decide) (List.cons.inj hrest).2
  rw [← duration_eq d, ← duration_eq d', hhours, hminutes, hseconds]

/-! ## Reading the lines -/

/-- A name without a line break, and the text of an address. -/
structure Listed.Plain (l : Listed) : Prop where
  username : 10 ∉ l.username
  ip : 10 ∉ l.ip ∧ 124 ∉ l.ip

instance decidablePlain (l : Listed) : Decidable l.Plain :=
  decidable_of_iff (10 ∉ l.username ∧ 10 ∉ l.ip ∧ 124 ∉ l.ip)
    ⟨fun h => ⟨h.1, h.2⟩, fun h => ⟨h.username, h.ip⟩⟩

/-- The time online has letters, digits, spaces, colons and signs only. -/
theorem not_mem_timeOnline {b : UInt8} (hb : b = 10 ∨ b = 124) (d : Time) : b ∉ timeOnline d := by
  have hnum : ∀ z, b ∉ decimalInt z := by
    rcases hb with rfl | rfl <;> exact fun z => not_mem_decimalInt (by decide) (by decide) z
  have htexts : b ∉ bytes "Time online " ∧ b ∉ bytes "h:" ∧ b ∉ bytes "m:" ∧ b ∉ bytes "s" := by
    rcases hb with rfl | rfl <;> decide
  obtain ⟨h₁, h₂, h₃, h₄⟩ := htexts
  simp [timeOnline, hnum, h₁, h₂, h₃, h₄]

theorem not_mem_line {l : Listed} (h : l.Plain) : 10 ∉ line l := by
  have hport : 10 ∉ decimal l.port.toNat := not_mem_decimal (by decide) _
  have htexts : 10 ∉ bytes " | " ∧ 10 ∉ bytes ":" := by decide
  simp [line, h.username, h.ip.1, hport, htexts.1, htexts.2, not_mem_timeOnline]

theorem line_injective {l l' : Listed} (h : l.Plain) (h' : l'.Plain) (heq : line l = line l') :
    l = l' := by
  have hbar : bytes " | " = [32, 124, 32] := by decide
  have hcolon : bytes ":" = [58] := by decide
  have hline : ∀ x : Listed, line x = (x.username ++ [32]) ++ 124 :: ((32 :: x.ip) ++
      58 :: decimal x.port.toNat ++ [32]) ++ 124 :: 32 :: timeOnline x.diff := by
    intro x
    simp [line, hbar, hcolon]
  have hport : ∀ (b : UInt8) (x : Listed), ¬ IsDigit b → b ∉ decimal x.port.toNat :=
    fun b x hb => not_mem_decimal hb _
  rw [hline, hline] at heq
  -- the last bar is the one before the time, and the last bar before that follows the name
  obtain ⟨heq, htime⟩ := append_cons_inj_last (by simp [not_mem_timeOnline])
    (by simp [not_mem_timeOnline]) heq
  obtain ⟨hname, haddr⟩ := append_cons_inj_last
    (by simp [h.ip.2, hport 124 l (by decide)]) (by simp [h'.ip.2, hport 124 l' (by decide)]) heq
  -- the last colon of the address is the one before the port
  obtain ⟨hip, hdec⟩ := append_cons_inj_last (hport 58 l (by decide)) (hport 58 l' (by decide))
    (List.append_cancel_right haddr)
  have hportEq : l.port = l'.port := UInt32.toNat_inj.mp (decimal_injective hdec)
  have hdiff : l.diff = l'.diff := timeOnline_injective (List.cons.inj htime).2
  cases l
  cases l'
  simp_all

/-- **The users that are listed can be told from the lines.** -/
theorem lines_injective {ls ls' : List Listed} (h : ∀ l ∈ ls, l.Plain) (h' : ∀ l ∈ ls', l.Plain)
    (heq : printed ls = printed ls') : ls = ls' := by
  have hlines := terminated_injective (by simpa using fun l hl => not_mem_line (h l hl))
    (by simpa using fun l hl => not_mem_line (h' l hl)) heq
  clear heq
  induction ls generalizing ls' with
  | nil => simpa using hlines.symm
  | cons l ls ih =>
    cases ls' with
    | nil => simp at hlines
    | cons l' ls' =>
      obtain ⟨hl, hls⟩ := List.forall_mem_cons.mp h
      obtain ⟨hl', hls'⟩ := List.forall_mem_cons.mp h'
      rw [List.map_cons, List.map_cons, List.cons.injEq] at hlines
      rw [line_injective hl hl' hlines.1, ih hls hls' hlines.2]

/-- **What was shown of every user can be told from what the console printed.** -/
theorem listing_of_printUsers (dataAvailable : Bytes → Bool) (leftover : Bytes → ConnectedUsers R)
    {now now' : ℕ → Time} {r r' : HttpResponse} {ls ls' : List Listed}
    (hls : ls = listing now (RestApiClient.getUsers dataAvailable leftover r).2.users)
    (hls' : ls' = listing now' (RestApiClient.getUsers dataAvailable leftover r').2.users)
    (h : ∀ l ∈ ls, l.Plain) (h' : ∀ l ∈ ls', l.Plain)
    (hok : (printUsers dataAvailable leftover now r).1 = .ok)
    (heq : (printUsers dataAvailable leftover now r).2 =
      (printUsers dataAvailable leftover now' r').2) : ls = ls' := by
  have hok' : (printUsers dataAvailable leftover now' r').1 = .ok :=
    printUsers_ok_iff.mpr (heq ▸ printUsers_ok_iff.mp hok)
  apply lines_injective h h'
  rw [hls, hls', ← printUsers_of_ok hok, ← printUsers_of_ok hok', heq]

/-- A user, with the fields in their order. -/
def orderedBody : Bytes := [10, 12, 10, 3, 98, 111, 98, 18, 1, 104, 24, 5, 32, 7]

/-- The same user, with the fields in another order. -/
def shuffledBody : Bytes := [10, 12, 24, 5, 18, 1, 104, 32, 7, 10, 3, 98, 111, 98]

/-- What the console shows of a body. -/
def listingOf (body : Bytes) : List Listed :=
  listing (R := wireFormat) (fun _ => 3700)
    (RestApiClient.getUsers (fun _ => true) (fun _ => .empty) ⟨200, body⟩).2.users

theorem listing_of_shuffled : listingOf orderedBody = listingOf shuffledBody :=
  listing_of_printUsers (fun _ => true) (fun _ => .empty) rfl rfl (by decide) (by decide)
    (by decide) (by decide)

end ConsoleApp

end SimpleChat
