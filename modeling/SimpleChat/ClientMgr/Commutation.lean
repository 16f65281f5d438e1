import SimpleChat.ClientMgr.Handlers
import SimpleChat.Transition.Dispatcher

/-!
# Events of different users commute

The deliveries of `CONNECTION_OPENED`, `CONNECTION_CLOSED` and `NEW_MESSAGE` run in sections, and
their threads interleave in any way. Both containers are ordered by username and every section
changes its own user only, so the interleaving does not matter beyond the order of the sections of
each user.

## Main definitions

* `Section.username`: the user a section is about
* `delivery now e`: the sections of a delivery, with the clock value they read

## Main results

* `perform_comm`: sections of different users commute on the whole client manager
* `interleavings_agree`: two interleavings that order the sections of each user alike leave the same
  client manager
-/

namespace SimpleChat

open Containers Transition

namespace ClientMgr

/-- The username of the user that a section is about. -/
def Section.username : Section → Bytes
  | .setTimeout user => user.username
  | .eraseTimeout user => user.username
  | .insertUser user => user.username
  | .eraseUser user => user.username

/-- The sections that handle an event, with the value of the clock that they read. -/
def delivery (now : Time) (e : Event) : List (Time × Section) :=
  (eventHandler e).map fun x => (now, x)

/-- What a section does to the timeouts. -/
def timeoutsAfter (now : Time) : Section → UserMap Time → UserMap Time
  | .setTimeout user, timeouts => timeouts.assign user now
  | .eraseTimeout user, timeouts => timeouts.erase user
  | .insertUser _, timeouts => timeouts
  | .eraseUser _, timeouts => timeouts

/-- A section works on the two containers apart. -/
theorem perform_eq (c : ClientMgr) (now : Time) (x : Section) :
    c.perform now x = ⟨timeoutsAfter now x c.userTimeouts, usersAfter x c.users⟩ := by
  cases x <;> rfl

/-- A section that changes the users changes them at its own username. -/
theorem username_of_usersName {x : Section} {n : Bytes} (h : x.usersName = some n) :
    x.username = n := by
  cases x with
  | insertUser user => exact Option.some.inj h
  | eraseUser user => exact Option.some.inj h
  | setTimeout user => cases h
  | eraseTimeout user => cases h

/-- Sections of different users commute on the timeouts. -/
theorem timeoutsAfter_comm {x y : Section} (h : x.username ≠ y.username) (now now' : Time)
    (timeouts : UserMap Time) :
    timeoutsAfter now x (timeoutsAfter now' y timeouts) =
      timeoutsAfter now' y (timeoutsAfter now x timeouts) := by
  cases x with
  | insertUser u => rfl
  | eraseUser u => rfl
  | setTimeout u =>
    cases y with
    | insertUser v => rfl
    | eraseUser v => rfl
    | setTimeout v => exact timeouts.alter_comm _ _ h.symm
    | eraseTimeout v => exact timeouts.alter_comm _ _ h.symm
  | eraseTimeout u =>
    cases y with
    | insertUser v => rfl
    | eraseUser v => rfl
    | setTimeout v => exact timeouts.alter_comm _ _ h.symm
    | eraseTimeout v => exact timeouts.alter_comm _ _ h.symm

/-- Sections of different users commute. -/
theorem perform_comm {x y : Section} (h : x.username ≠ y.username) (now now' : Time)
    (c : ClientMgr) :
    (c.perform now' y).perform now x = (c.perform now x).perform now' y := by
  have husers : usersAfter x (usersAfter y c.users) = usersAfter y (usersAfter x c.users) := by
    apply usersAfter_comm
    intro n hx hy
    exact h ((username_of_usersName hx).trans (username_of_usersName hy).symm)
  simp only [perform_eq, timeoutsAfter_comm h, husers]

/-- **Only the order of the sections of one user matters**: two interleavings that order the sections
of each username alike lead from the same client manager to the same one. -/
theorem interleavings_agree {as bs : List (Time × Section)}
    (h : ∀ n, (as.filter fun r => r.2.username = n) = bs.filter fun r => r.2.username = n)
    (c : ClientMgr) :
    flush (fun r c => c.perform r.1 r.2) as c = flush (fun r c => c.perform r.1 r.2) bs c :=
  flush_eq_of_filter_eq (fun r : Time × Section => r.2.username)
    (fun a b hab => perform_comm hab a.1 b.1) h c

/-- Two connections are opened, one after the other or section by section. -/
theorem interleavings_agree_opened :
    let bob := User.ofConnection (bytes "bob") (bytes "10.0.0.1") 50000
    let alice := User.ofConnection (bytes "alice") (bytes "10.0.0.2") 50001
    flush (fun r c => c.perform r.1 r.2)
        (delivery 1 (.connectionOpened bob) ++ delivery 2 (.connectionOpened alice)) init =
      flush (fun r c => c.perform r.1 r.2)
        [(2, .setTimeout alice), (1, .setTimeout bob), (2, .insertUser alice),
          (1, .insertUser bob)] init := by
  intro bob alice
  refine interleavings_agree (fun n => ?_) init
  have hne : bob.username ≠ alice.username := by decide
  by_cases hbob : bob.username = n
  · subst hbob
    simp [delivery, eventHandler, connectionOpened, Section.username, hne.symm]
  · by_cases halice : alice.username = n
    · subst halice
      simp [delivery, eventHandler, connectionOpened, Section.username, hne]
    · simp [delivery, eventHandler, connectionOpened, Section.username, hbob, halice]

end ClientMgr

end SimpleChat
