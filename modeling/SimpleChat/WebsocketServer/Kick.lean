import SimpleChat.WebsocketServer.Usernames
import Mathlib.Data.List.Nodup

/-!
# Kicking a user

A `DISCONNECT_USER` event names the user to be removed. `DisconnectUser` leaves its loop over
`conn_user_map` after the first connection under that name, so a kick removes its target exactly if
no other connection carries the name.

## Main definitions

* `WebsocketServer.closeCalls`: the calls of `srv.close` that `DisconnectUser` makes
* `Connections.closings`: the `CloseHandler`s of some connections, at some times
* `Connections.Kicked n`: the kick closes the connections under `n` once each, and nobody else

## Main results

* `run_closings`: the `CloseHandler`s of open connections remove them and nothing else
* `kicked_iff`: a kick is complete exactly if its target is connected at most once
* `kicked_along`: while every opening finds its name free, every kick is complete
-/

namespace SimpleChat

open Containers Std Transition

/-- The connections that `DisconnectUser` calls `srv.close` on, in order. -/
def WebsocketServer.closeCalls {Hdl : Type} [LinearOrder Hdl] (s : WebsocketServer Hdl)
    (user : User) : List Hdl := (s.disconnectUser user).toList

namespace Connections

variable {Hdl : Type}

/-- The `CloseHandler`s of some connections, each at its time. -/
def closings (ks : List (Time × Hdl)) : List (Time × Call Hdl) :=
  ks.map fun k => (k.1, .closeHandler k.2)

variable [LinearOrder Hdl]

/-- The `CloseHandler`s of distinct open connections can run in any order; they remove these
connections and no others. -/
theorem run_closings {s : Connections Hdl} (hs : s.Inv) {ks : List (Time × Hdl)}
    (hnodup : (ks.map Prod.snd).Nodup) (hopen : ∀ k ∈ ks.map Prod.snd, s.phase k = .opened) :
    ∃ s', run step s (closings ks) = some s' ∧
      ∀ h n, s'.server.Carries h n ↔ h ∉ ks.map Prod.snd ∧ s.server.Carries h n := by
  induction ks generalizing s with
  | nil => exact ⟨s, rfl, by simp⟩
  | cons k ks ih =>
    obtain ⟨now, k⟩ := k
    rw [List.map_cons, List.nodup_cons] at hnodup
    have hk : s.phase k = .opened := hopen k (List.mem_cons_self ..)
    let t : Connections Hdl :=
      ⟨(s.server.closeHandler k).1, Function.update s.phase k .closed⟩
    have hstep : s.step (now, .closeHandler k) = some t := by
      simp [step, Call.hdl, hk, Phase.next, WebsocketServer.serve, t]
    have hrest : ∀ x ∈ ks.map Prod.snd, t.phase x = .opened := by
      intro x hx
      have hne : x ≠ k := by
        rintro rfl
        exact hnodup.1 hx
      rw [phase_of_step hstep hne]
      exact hopen x (List.mem_cons_of_mem _ hx)
    obtain ⟨s', hrun, hcarries⟩ := ih (inv_step hs hstep) hnodup.2 hrest
    refine ⟨s', ?_, fun h n => ?_⟩
    · show (s.step (now, .closeHandler k)).bind _ = some s'
      rw [hstep]
      exact hrun
    · rw [hcarries, hs.carries_closeHandler hk, List.map_cons, List.mem_cons, not_or,
        and_left_comm, and_assoc]

/-- What a kick of `n` is for: `srv.close` is called once on every connection under `n` and on no
other, and nobody carries `n` once the `CloseHandler`s of these connections have run. -/
structure Kicked (s : Connections Hdl) (n : Bytes) : Prop where
  closed : ∀ h, s.server.Carries h n → (s.server.closeCalls (.ofUsername n)).count h = 1
  spared : ∀ h, ¬ s.server.Carries h n → h ∉ s.server.closeCalls (.ofUsername n)
  gone : ∀ ks : List (Time × Hdl), (ks.map Prod.snd).Perm (s.server.closeCalls (.ofUsername n)) →
    ∃ s', run step s (closings ks) = some s' ∧ ∀ h, ¬ s'.server.Carries h n

/-- The only connection under a name is the one that is closed. -/
theorem closeCalls_of_not_duplicated {s : Connections Hdl} {n : Bytes} (hdup : ¬ s.Duplicated n)
    {h : Hdl} (hh : s.server.Carries h n) : s.server.closeCalls (.ofUsername n) = [h] := by
  have hleast : ∀ k, s.server.Carries k n → h ≤ k := by
    intro k hk
    by_contra hle
    exact hdup ⟨h, k, fun heq => hle heq.le, hh, hk⟩
  have hsome : s.server.disconnectUser (.ofUsername n) = some h :=
    WebsocketServer.disconnectUser_eq_some.mpr ⟨hh, hleast⟩
  rw [WebsocketServer.closeCalls, hsome, Option.toList_some]

/-- Only connections under the name are closed, and at most one of them. -/
theorem carries_of_mem_closeCalls {s : Connections Hdl} {n : Bytes} {h : Hdl}
    (hh : h ∈ s.server.closeCalls (.ofUsername n)) :
    s.server.Carries h n ∧ s.server.closeCalls (.ofUsername n) = [h] := by
  have hsome : s.server.disconnectUser (.ofUsername n) = some h := Option.mem_toList.mp hh
  refine ⟨(WebsocketServer.disconnectUser_eq_some.mp hsome).1, ?_⟩
  rw [WebsocketServer.closeCalls, hsome, Option.toList_some]

/-- If one connection at most carries the name, the loop may stop at the first. -/
theorem kicked_of_not_duplicated {s : Connections Hdl} (hs : s.Inv) {n : Bytes}
    (hdup : ¬ s.Duplicated n) : s.Kicked n where
  closed h hh := by rw [closeCalls_of_not_duplicated hdup hh, List.count_singleton_self]
  spared h hh hmem := hh (carries_of_mem_closeCalls hmem).1
  gone ks hks := by
    have hnodup : (ks.map Prod.snd).Nodup := by
      refine hks.nodup_iff.mpr ?_
      cases hd : s.server.disconnectUser (.ofUsername n) <;> simp [WebsocketServer.closeCalls, hd]
    have hopen : ∀ k ∈ ks.map Prod.snd, s.phase k = .opened := fun k hk =>
      hs.opened_of_carries (carries_of_mem_closeCalls (hks.mem_iff.mp hk)).1
    obtain ⟨s', hrun, hcarries⟩ := run_closings hs hnodup hopen
    refine ⟨s', hrun, fun h hh => ?_⟩
    obtain ⟨hnot, hh⟩ := (hcarries h n).mp hh
    apply hnot
    rw [hks.mem_iff, closeCalls_of_not_duplicated hdup hh]
    exact List.mem_singleton_self h

/-- **A kick removes all of its target and nobody else exactly if at most one connection carries
the name.** -/
theorem kicked_iff {s : Connections Hdl} (hreach : Reachable step init s) (n : Bytes) :
    s.Kicked n ↔ ¬ s.Duplicated n := by
  constructor
  · rintro hkick ⟨h, k, hne, hh, hk⟩
    -- both would be closed, but the loop closes one
    have hmem : ∀ x, s.server.Carries x n → x ∈ s.server.closeCalls (.ofUsername n) := by
      intro x hx
      apply List.count_pos_iff.mp
      rw [hkick.closed x hx]
      exact Nat.one_pos
    obtain ⟨-, heq⟩ := carries_of_mem_closeCalls (hmem h hh)
    have hkh := hmem k hk
    rw [heq] at hkh
    exact hne (List.mem_singleton.mp hkh).symm
  · exact kicked_of_not_duplicated (inv_of_reachable hreach)

/-- After two overlapping handshakes a kick closes one of the two connections, and the other one
stays. -/
theorem duplicate_survives_kick :
    Reachable step init overlapped ∧ overlapped.server.Carries 2 (bytes "bob") ∧
      overlapped.server.closeCalls (.ofUsername (bytes "bob")) = [1] ∧
      ¬ overlapped.Kicked (bytes "bob") := by
  have hcalls : overlapped.server.closeCalls (.ofUsername (bytes "bob")) = [1] := by decide
  have hcarries : overlapped.server.Carries 2 (bytes "bob") := ⟨_, rfl, rfl⟩
  refine ⟨⟨overlappingRun, run_overlappingRun⟩, hcarries, hcalls, fun hkick => ?_⟩
  have hcount := hkick.closed 2 hcarries
  rw [hcalls] at hcount
  cases hcount

theorem kicked_overlapped :
    overlapped.Kicked (bytes "bob") ↔ ¬ overlapped.Duplicated (bytes "bob") :=
  kicked_iff ⟨overlappingRun, run_overlappingRun⟩ (bytes "bob")

/-- While every opening finds its name free, every kick is complete. -/
theorem kicked_along {as : List (Time × Call Hdl)} (hfree : Meets step NameStillFree init as) :
    Along step (fun s : Connections Hdl => ∀ n, s.Kicked n) init as := by
  have hexclusive : Along step (fun s : Connections Hdl => s.Inv ∧ s.Exclusive) init as :=
    hfree.along ⟨inv_init, exclusive_init⟩ fun _ _ _ ht hc hstep =>
      ⟨inv_step ht.1 hstep, (exclusive_step ht.1 ht.2 hstep).mpr hc⟩
  intro p t hp ht n
  obtain ⟨hinv, hex⟩ := hexclusive p t hp ht
  exact kicked_of_not_duplicated hinv (hex.not_duplicated n)

end Connections

end SimpleChat
