import SimpleChat.EventBus.Event
import Mathlib.Data.Set.Insert

/-!
# The client manager

The client manager keeps two containers of users: the time at which each user was last active, and
the users the admin is shown. Each of its handlers runs in sections, one for each lock it takes.

## Main definitions

* `ClientMgr`: the two containers
* `ClientMgr.Section`, `ClientMgr.perform`: the sections of the handlers
* `ClientMgr.eventHandler`: the sections that handle an event
* `ClientMgr.tracked`: the names of the users whose activity is kept

## Main results

* `ClientMgr.mem_tracked`: the tracked names are those of the entries of `user_timeouts`
* `ClientMgr.tracked_perform`: the sections change the tracked names one by one
* `ClientMgr.userStored_insert`, `ClientMgr.userStored_erase`: what they do to the users shown
-/

namespace SimpleChat

open Containers

structure ClientMgr where
  userTimeouts : UserMap Time
  users : UserSet

namespace ClientMgr

/-- The seconds after which an idle user is disconnected. -/
def timeout : Time := 10 * 60

/-- A section of a handler. The first two hold `mtx_user_timeouts`, the others `mtx_users`. -/
inductive Section where
  | setTimeout (user : User)
  | eraseTimeout (user : User)
  | insertUser (user : User)
  | eraseUser (user : User)
  deriving DecidableEq, Repr

def init : ClientMgr := ⟨∅, ∅⟩

def connectionOpened (user : User) : List Section := [.setTimeout user, .insertUser user]

def connectionClosed (user : User) : List Section := [.eraseTimeout user, .eraseUser user]

def newMessage (message : Message) : List Section := [.setTimeout message.user]

def eventHandler : Event → List Section
  | .connectionOpened user => connectionOpened user
  | .connectionClosed user => connectionClosed user
  | .newMessage message => newMessage message
  | _ => []

/-- A section that reads the clock at `now`. -/
def perform (c : ClientMgr) (now : Time) : Section → ClientMgr
  | .setTimeout user => { c with userTimeouts := c.userTimeouts.assign user now }
  | .eraseTimeout user => { c with userTimeouts := c.userTimeouts.erase user }
  | .insertUser user => { c with users := c.users.insert user () }
  | .eraseUser user => { c with users := c.users.erase user }

/-- A user that was idle for `timeout` seconds is to be disconnected. -/
def isIdle (now : Time) (entry : User × Time) : Bool := entry.2 + timeout ≤ now

/-- The keys of `user_timeouts`, as usernames. -/
def tracked (c : ClientMgr) : Set Bytes := {n | (c.userTimeouts.find? n).isSome = true}

/-- What a section does to the tracked names. -/
def trackedAfter : Section → Set Bytes → Set Bytes
  | .setTimeout user, names => insert user.username names
  | .eraseTimeout user, names => names \ {user.username}
  | .insertUser _, names => names
  | .eraseUser _, names => names

/-- What a section does to the users. -/
def usersAfter : Section → UserSet → UserSet
  | .insertUser user, users => users.insert user ()
  | .eraseUser user, users => users.erase user
  | .setTimeout _, users => users
  | .eraseTimeout _, users => users

/-- The username that a section changes the users at. -/
def Section.usersName : Section → Option Bytes
  | .insertUser user => some user.username
  | .eraseUser user => some user.username
  | .setTimeout _ => none
  | .eraseTimeout _ => none

/-- The tracked names are those of the entries that `Cyclic` looks at. -/
theorem mem_tracked {c : ClientMgr} {n : Bytes} :
    n ∈ c.tracked ↔ ∃ e ∈ c.userTimeouts.toList, e.1.username = n := by
  constructor
  · intro h
    obtain ⟨e, he⟩ := Option.isSome_iff_exists.mp h
    have hname : e.1.username = n := KeyedMap.key_of_find? he
    refine ⟨e, KeyedMap.mem_toList.mpr ?_, hname⟩
    rwa [hname]
  · rintro ⟨e, he, rfl⟩
    exact Option.isSome_iff_exists.mpr ⟨e, KeyedMap.mem_toList.mp he⟩

@[simp] theorem tracked_perform (c : ClientMgr) (now : Time) (x : Section) :
    (c.perform now x).tracked = trackedAfter x c.tracked := by
  ext n
  cases x with
  | setTimeout u =>
    by_cases h : u.username = n
    · simp [perform, tracked, trackedAfter, KeyedMap.find?_assign, h]
    · simp [perform, tracked, trackedAfter, KeyedMap.find?_assign, h, Ne.symm h]
  | eraseTimeout u =>
    by_cases h : u.username = n
    · simp [perform, tracked, trackedAfter, KeyedMap.find?_erase, h]
    · simp [perform, tracked, trackedAfter, KeyedMap.find?_erase, h, Ne.symm h]
  | insertUser u => rfl
  | eraseUser u => rfl

@[simp] theorem users_perform (c : ClientMgr) (now : Time) (x : Section) :
    (c.perform now x).users = usersAfter x c.users := by
  cases x <;> rfl

/-- Sections at different usernames commute on the users. -/
theorem usersAfter_comm {x y : Section} (h : ∀ n, x.usersName = some n → y.usersName ≠ some n)
    (users : UserSet) :
    usersAfter x (usersAfter y users) = usersAfter y (usersAfter x users) := by
  cases x with
  | setTimeout u => rfl
  | eraseTimeout u => rfl
  | insertUser u =>
    cases y with
    | setTimeout v => rfl
    | eraseTimeout v => rfl
    | insertUser v => exact users.alter_comm _ _ fun hn => h u.username rfl (by rw [← hn]; rfl)
    | eraseUser v => exact users.alter_comm _ _ fun hn => h u.username rfl (by rw [← hn]; rfl)
  | eraseUser u =>
    cases y with
    | setTimeout v => rfl
    | eraseTimeout v => rfl
    | insertUser v => exact users.alter_comm _ _ fun hn => h u.username rfl (by rw [← hn]; rfl)
    | eraseUser v => exact users.alter_comm _ _ fun hn => h u.username rfl (by rw [← hn]; rfl)

/-- Sections commute on the tracked names unless one sets what the other erases. -/
theorem trackedAfter_comm {x y : Section}
    (hset : ∀ u v, x = .setTimeout u → y = .eraseTimeout v → v.username ≠ u.username)
    (herase : ∀ u v, x = .eraseTimeout u → y = .setTimeout v → v.username ≠ u.username)
    (names : Set Bytes) :
    trackedAfter x (trackedAfter y names) = trackedAfter y (trackedAfter x names) := by
  cases x with
  | insertUser u => rfl
  | eraseUser u => rfl
  | setTimeout u =>
    cases y with
    | insertUser v => rfl
    | eraseUser v => rfl
    | setTimeout v => exact Set.insert_comm _ _ _
    | eraseTimeout v => exact Set.insert_sdiff_singleton_comm (hset u v rfl rfl).symm _
  | eraseTimeout u =>
    cases y with
    | insertUser v => rfl
    | eraseUser v => rfl
    | setTimeout v => exact (Set.insert_sdiff_singleton_comm (herase u v rfl rfl) _).symm
    | eraseTimeout v => exact Set.sdiff_sdiff_comm

/-- Inserting a user under a name that is not stored adds it. -/
theorem userStored_insert {users : UserSet} {u : User}
    (hfree : ∀ v, UserStored users v → v.username ≠ u.username) (v : User) :
    UserStored (users.insert u ()) v ↔ v = u ∨ UserStored users v := by
  -- `insert` keeps a record that is there, so the name has to be free
  have hnone : users.find? u.username = none := by
    cases hf : users.find? u.username with
    | none => rfl
    | some e =>
      have hkey := KeyedMap.key_of_find? hf
      exact absurd hkey (hfree e.1 ⟨e.2, by rw [hkey, hf]⟩)
  by_cases h : u.username = v.username
  · have hins : (users.insert u ()).find? v.username = some (u, ()) := by
      rw [KeyedMap.find?_insert, if_pos h, hnone]
      rfl
    constructor
    · rintro ⟨b, hb⟩
      rw [hins] at hb
      cases hb
      exact .inl rfl
    · rintro (rfl | hv)
      · exact ⟨(), hins⟩
      · exact absurd h.symm (hfree v hv)
  · have hne : v ≠ u := by
      rintro rfl
      exact h rfl
    simp [UserStored, KeyedMap.find?_insert, h, hne]

/-- Erasing a user removes whoever is stored under its name. -/
theorem userStored_erase {users : UserSet} (u v : User) :
    UserStored (users.erase u) v ↔ v.username ≠ u.username ∧ UserStored users v := by
  by_cases h : u.username = v.username
  · simp [UserStored, KeyedMap.find?_erase, h]
  · simp [UserStored, KeyedMap.find?_erase, h, Ne.symm h]

end ClientMgr

end SimpleChat
