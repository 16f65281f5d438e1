import SimpleChat.WebsocketServer.LifeCycle
import Mathlib.Data.List.Infix

/-!
# The usernames in use

A name is checked when a connection is validated and taken when it is opened. In between another
connection can take it: then two open connections carry one name, and the close of one releases
the name that the other still uses. Nothing else makes a duplicate, and no name stays taken once
its connections are gone.

## Main definitions

* `Exclusive`: no two open connections carry one name, and every carried name is in use
* `NameStillFree`: the condition on a step, that a name validated earlier is free when it is taken
* `Duplicated n`: two open connections carry `n`
* `Overlap as h k`: a point of the run at which both connections were accepted, neither opened

## Main results

* `exclusive_along_iff`: names are exclusive along a run exactly if every opening finds its
  name free
* `overlap_of_first_duplicate`: the first duplicate of a name comes from overlapping handshakes
* `names_released`: the names in use are those of open connections
-/

namespace SimpleChat

open Containers Std Transition

namespace Connections

variable {Hdl : Type} [LinearOrder Hdl]

/-- No two connections of `conn_user_map` carry one name, and every name carried there is in
`usernames`. -/
def Exclusive (s : Connections Hdl) : Prop :=
  (∀ h k n, s.server.Carries h n → s.server.Carries k n → h = k) ∧
    ∀ h n, s.server.Carries h n → n ∈ s.server.usernames

/-- A connection is opened only while the name it was validated with is not in use. -/
def NameStillFree (s : Connections Hdl) : Time × Call Hdl → Prop
  | (_, .openHandler h) => ∀ u, s.server.valMap[h]? = some u → u.username ∉ s.server.usernames
  | _ => True

/-- Two connections of `conn_user_map` carry the name. -/
def Duplicated (n : Bytes) (s : Connections Hdl) : Prop :=
  ∃ h k, h ≠ k ∧ s.server.Carries h n ∧ s.server.Carries k n

/-! ## Exclusive names -/

theorem exclusive_init : (init : Connections Hdl).Exclusive := by
  simp [Exclusive, init, WebsocketServer.init, WebsocketServer.Carries]

theorem Exclusive.not_duplicated {s : Connections Hdl} (hex : s.Exclusive) (n : Bytes) :
    ¬ s.Duplicated n := by
  rintro ⟨h, k, hne, hh, hk⟩
  exact hne (hex.1 h k n hh hk)

/-- A name stays in use while it is carried, unless a duplicate of it is closed. -/
theorem in_use_step {n : Bytes} {s s' : Connections Hdl} {a : Time × Call Hdl} (hs : s.Inv)
    (hdup : ¬ s.Duplicated n) (huse : ∀ h, s.server.Carries h n → n ∈ s.server.usernames)
    (hstep : s.step a = some s') {h : Hdl} (hh : s'.server.Carries h n) :
    n ∈ s'.server.usernames := by
  obtain ⟨now, c⟩ := a
  cases step_cases hstep with
  | validate x req hx => exact huse h hh
  | opening x hx =>
    obtain ⟨w, hw⟩ := hs.exists_validated hx
    show n ∈ (s.server.openHandler x now).1.usernames
    rw [WebsocketServer.openHandler_eq now hw]
    rcases (hs.carries_openHandler hx hw now h n).mp hh with ⟨-, rfl⟩ | hh
    · exact Finset.mem_insert_self _ _
    · exact Finset.mem_insert_of_mem (huse h hh)
  | message x msg hx => exact huse h hh
  | close x hx =>
    obtain ⟨w, hw⟩ := hs.exists_connected hx
    obtain ⟨hhx, hh⟩ := (hs.carries_closeHandler hx h n).mp hh
    show n ∈ (s.server.closeHandler x).1.usernames
    rw [WebsocketServer.closeHandler_eq hw]
    -- only another carrier could release the name, and there is none
    refine Finset.mem_erase.mpr ⟨?_, huse h hh⟩
    rintro rfl
    exact hdup ⟨h, x, hhx, hh, w, hw, rfl⟩
  | fail x hx =>
    rw [WebsocketServer.failHandler_fst] at hh ⊢
    exact huse h hh

/-- From a state with exclusive names, a step keeps them exactly if the name it takes, if any, is
still free. -/
theorem exclusive_step {s s' : Connections Hdl} {a : Time × Call Hdl} (hs : s.Inv)
    (hex : s.Exclusive) (h : s.step a = some s') : s'.Exclusive ↔ s.NameStillFree a := by
  obtain ⟨now, c⟩ := a
  constructor
  · rintro ⟨huniq, -⟩
    cases step_cases h with
    | opening k hp =>
      -- a name in use is carried by some connection, which is not the one being opened
      intro u hu hmem
      have hcarries := hs.carries_openHandler hp hu now
      obtain ⟨x, hx⟩ := hs.held _ hmem
      have hxk : x = k := huniq x k u.username ((hcarries x _).mpr (.inr hx))
        ((hcarries k _).mpr (.inl ⟨rfl, rfl⟩))
      have hopen := hs.opened_of_carries hx
      rw [hxk, hp] at hopen
      cases hopen
    | _ => trivial
  · intro hstill
    refine ⟨fun x y n hx hy => ?_, fun x n hx => ?_⟩
    · rcases carries_of_step hs h hx with ⟨u, rfl, -, hu, rfl⟩ | hx <;>
        rcases carries_of_step hs h hy with ⟨v, hc, -, hv, hn⟩ | hy
      · exact Call.openHandler.inj hc
      · exact absurd (hex.2 y _ hy) (hstill u hu)
      · subst hc hn
        exact absurd (hex.2 x _ hx) (hstill v hv)
      · exact hex.1 x y n hx hy
    · exact in_use_step hs (hex.not_duplicated n) (fun k hk => hex.2 k n hk) h hx

/-- **Names are exclusive along a run exactly if every opening finds the name it validated still
free.** -/
theorem exclusive_along_iff {as : List (Time × Call Hdl)} {s : Connections Hdl}
    (hrun : run step init as = some s) :
    Along step Exclusive init as ↔ Meets step NameStillFree init as :=
  along_iff_meets exclusive_init
    (fun _ _ _ ht hex h => exclusive_step (inv_of_reachable ht) hex h) hrun

/-- A request with the given `Username` header. -/
def requestNamed (name : String) : Request := ⟨bytes name, ⟨bytes "10.0.0.1", none⟩, 50000⟩

/-- Two handshakes under one name: both validated, then both opened. -/
def overlappingRun : List (Time × Call ℕ) :=
  [(0, .validateHandler 1 (requestNamed "bob")), (0, .validateHandler 2 (requestNamed "bob")),
    (1, .openHandler 1), (2, .openHandler 2)]

theorem overlappingRun_runs : (run step init overlappingRun).isSome = true := by decide

/-- The state after the two overlapping handshakes. -/
def overlapped : Connections ℕ := (run step init overlappingRun).get overlappingRun_runs

theorem run_overlappingRun : run step init overlappingRun = some overlapped :=
  (Option.some_get _).symm

/-- After overlapping handshakes names are not exclusive. -/
theorem overlapping_handshakes_duplicate :
    Reachable step init overlapped ∧ ¬ overlapped.Exclusive := by
  refine ⟨⟨overlappingRun, run_overlappingRun⟩, fun hex => ?_⟩
  have heq : 1 = 2 := hex.1 1 2 (bytes "bob") ⟨_, rfl, rfl⟩ ⟨_, rfl, rfl⟩
  cases heq

theorem exclusive_along_overlappingRun :
    Along step Exclusive init overlappingRun ↔ Meets step NameStillFree init overlappingRun :=
  exclusive_along_iff run_overlappingRun

/-! ## The source of duplicates

The history of a run: which connections were accepted and which were opened in it. -/

/-- In the run `as`, `ValidateHandler` answered `true` for the connection. -/
def AcceptedIn (as : List (Time × Call Hdl)) (h : Hdl) : Prop :=
  ∃ p now req t, p ++ [(now, .validateHandler h req)] <+: as ∧ run step init p = some t ∧
    (t.server.validateHandler h req).2 = true

/-- In the run `as`, `OpenHandler` was called for the connection. -/
def OpenedIn (as : List (Time × Call Hdl)) (h : Hdl) : Prop := ∃ now, (now, .openHandler h) ∈ as

/-- At some point of the run both connections had been accepted and neither had been opened. -/
def Overlap (as : List (Time × Call Hdl)) (h k : Hdl) : Prop :=
  ∃ p, p <+: as ∧ AcceptedIn p h ∧ AcceptedIn p k ∧ ¬ OpenedIn p h ∧ ¬ OpenedIn p k

theorem AcceptedIn.mono {as bs : List (Time × Call Hdl)} {h : Hdl} (ha : AcceptedIn as h)
    (hp : as <+: bs) : AcceptedIn bs h := by
  obtain ⟨p, now, req, t, hpre, hrest⟩ := ha
  exact ⟨p, now, req, t, hpre.trans hp, hrest⟩

theorem Overlap.mono {as bs : List (Time × Call Hdl)} {h k : Hdl} (ho : Overlap as h k)
    (hp : as <+: bs) : Overlap bs h k := by
  obtain ⟨p, hpre, hrest⟩ := ho
  exact ⟨p, hpre.trans hp, hrest⟩

theorem Overlap.symm {as : List (Time × Call Hdl)} {h k : Hdl} (ho : Overlap as h k) :
    Overlap as k h := by
  obtain ⟨p, hpre, hh, hk, hoh, hok⟩ := ho
  exact ⟨p, hpre, hk, hh, hok, hoh⟩

omit [LinearOrder Hdl] in
theorem openedIn_concat {as : List (Time × Call Hdl)} {now : Time} {c : Call Hdl} {h : Hdl} :
    OpenedIn (as ++ [(now, c)]) h ↔ OpenedIn as h ∨ c = .openHandler h := by
  rw [@eq_comm _ c]
  exact calledIn_concat

/-- The phases tell the history: an accepted connection was accepted in the run, and a connection
that is still in its handshake was not opened in it. -/
theorem history_of_phase {as : List (Time × Call Hdl)} {s : Connections Hdl}
    (hrun : run step init as = some s) (h : Hdl) :
    (s.phase h = .accepted → AcceptedIn as h) ∧
      ((s.phase h).Handshaking → ¬ OpenedIn as h) := by
  refine run_history_induction (P := fun as s => (s.phase h = .accepted → AcceptedIn as h) ∧
    ((s.phase h).Handshaking → ¬ OpenedIn as h)) ⟨?_, ?_⟩ ?_ hrun
  · intro hp
    cases hp
  · rintro - ⟨now, hmem⟩
    cases hmem
  · rintro p t ⟨now, c⟩ u hp ⟨iha, iho⟩ hstep
    have hpre : p <+: p ++ [(now, c)] := List.prefix_append _ _
    rw [openedIn_concat]
    have hcases := step_cases hstep
    by_cases hc : c.hdl = h
    · subst hc
      cases hcases with
      | validate k req hk =>
        simp only [Call.hdl, Function.update_self]
        refine ⟨fun hacc => ⟨p, now, req, t, List.prefix_refl _, hp, ?_⟩, fun _ hop => ?_⟩
        · by_contra hans
          rw [if_neg hans] at hacc
          cases hacc
        · rcases hop with hop | hop
          · exact iho (.inl hk) hop
          · cases hop
      | opening k hk => simp [Call.hdl, Phase.Handshaking]
      | message k msg hk => simp [Call.hdl, Phase.Handshaking, hk]
      | close k hk => simp [Call.hdl, Phase.Handshaking]
      | fail k hk => simp [Call.hdl, Phase.Handshaking]
    · -- the step is one of another connection, which leaves the phase alone
      have hphase : u.phase h = t.phase h := phase_of_step hstep (Ne.symm hc)
      rw [hphase]
      refine ⟨fun hacc => (iha hacc).mono hpre, fun hhs hop => ?_⟩
      rcases hop with hop | rfl
      · exact iho hhs hop
      · exact hc rfl

/-- What holds of a name as long as it was never duplicated: it is in use while it is carried, and
every connection accepted under it besides a carrier overlaps with that carrier. -/
structure Accounted (n : Bytes) (as : List (Time × Call Hdl)) (s : Connections Hdl) : Prop where
  in_use : ∀ h, s.server.Carries h n → n ∈ s.server.usernames
  overlap : ∀ h k u, s.server.Carries h n → s.phase k = .accepted →
    s.server.valMap[k]? = some u → u.username = n → Overlap as h k

theorem accounted_step {n : Bytes} {p : List (Time × Call Hdl)} {t u : Connections Hdl}
    {a : Time × Call Hdl} (hp : run step init p = some t) (ht : Accounted n p t)
    (hdup : ¬ t.Duplicated n) (hstep : t.step a = some u) : Accounted n (p ++ [a]) u := by
  have hinv : t.Inv := inv_of_reachable ⟨p, hp⟩
  have hpre : p <+: p ++ [a] := List.prefix_append _ _
  refine ⟨fun h hh => in_use_step hinv hdup ht.in_use hstep hh, fun h k v hh hk hv hvn => ?_⟩
  obtain ⟨now, c⟩ := a
  rcases accepted_of_step hinv hstep hk hv with ⟨req, rfl, hans, rfl⟩ | ⟨hk, hv⟩
  · -- an accepted name was not in use, so no connection carries it
    have hcarried : t.server.Carries h n := (carries_of_step hinv hstep hh).resolve_left nofun
    exact absurd (ht.in_use h hcarried) (hvn ▸ (WebsocketServer.validateHandler_snd.mp hans).2)
  · rcases carries_of_step hinv hstep hh with ⟨w, rfl, hx, -, -⟩ | hh
    · -- at this point of the run both are accepted and neither is opened
      obtain ⟨hacch, hoph⟩ := history_of_phase hp h
      obtain ⟨hacck, hopk⟩ := history_of_phase hp k
      exact ⟨p, hpre, hacch hx, hacck hk, hoph (.inr (.inl hx)), hopk (.inr (.inl hk))⟩
    · exact (ht.overlap h k v hh hk hv hvn).mono hpre

theorem accounted_of_run {n : Bytes} {as : List (Time × Call Hdl)} {s : Connections Hdl}
    (hrun : run step init as = some s) (hdup : Along step (fun s => ¬ s.Duplicated n) init as) :
    Accounted n as s := by
  refine run_history_induction
    (P := fun p t => Along step (fun s => ¬ s.Duplicated n) init p → Accounted n p t) ?_ ?_ hrun
    hdup
  · intro _
    constructor <;> simp [init, WebsocketServer.init, WebsocketServer.Carries]
  · intro p t a u hp ih hstep hal
    have halp := hal.of_prefix (List.prefix_append _ _)
    exact accounted_step hp (ih halp) (halp.last hp) hstep

/-- The step that duplicates a name opens one of the two connections under it; the other one
carries it already. -/
theorem duplicated_step {n : Bytes} {s s' : Connections Hdl} {a : Time × Call Hdl} (hs : s.Inv)
    (hdup : ¬ s.Duplicated n) (hstep : s.step a = some s') {h k : Hdl} (hne : h ≠ k)
    (hh : s'.server.Carries h n) (hk : s'.server.Carries k n) :
    ∃ x y u, (x = h ∧ y = k ∨ x = k ∧ y = h) ∧ s.server.Carries x n ∧ s.phase y = .accepted ∧
      s.server.valMap[y]? = some u ∧ u.username = n := by
  obtain ⟨now, c⟩ := a
  rcases carries_of_step hs hstep hh with ⟨u, hc, hp, hu, hn⟩ | hh <;>
    rcases carries_of_step hs hstep hk with ⟨w, hc', hp', hw, hn'⟩ | hk
  · exact absurd (Call.openHandler.inj (hc.symm.trans hc')) hne
  · exact ⟨k, h, u, .inr ⟨rfl, rfl⟩, hk, hp, hu, hn⟩
  · exact ⟨h, k, w, .inl ⟨rfl, rfl⟩, hh, hp', hw, hn'⟩
  · exact absurd ⟨h, k, hne, hh, hk⟩ hdup

/-- **The first duplicate of a name comes from overlapping handshakes**: where two connections
carry a name for the first time in a run, both had been accepted before either was opened. -/
theorem overlap_of_first_duplicate {as : List (Time × Call Hdl)} {s : Connections Hdl} {n : Bytes}
    (hrun : run step init as = some s)
    (hfirst : ∀ p t, p <+: as → p ≠ as → run step init p = some t → ¬ t.Duplicated n)
    {h k : Hdl} (hne : h ≠ k) (hh : s.server.Carries h n) (hk : s.server.Carries k n) :
    Overlap as h k := by
  rcases List.eq_nil_or_concat as with rfl | ⟨p, a, rfl⟩
  · obtain rfl : init = s := Option.some.inj hrun
    obtain ⟨u, hu, -⟩ := hh
    simp [init, WebsocketServer.init] at hu
  · -- the run up to its last step has no duplicate, so its carriers are accounted for
    rw [List.concat_eq_append] at *
    have hpre : p <+: p ++ [a] := List.prefix_append _ _
    obtain ⟨t, ht, hstep⟩ := run_concat_eq_some.mp hrun
    have hal : Along step (fun s => ¬ s.Duplicated n) init p := by
      intro q v hq hv
      refine hfirst q v (hq.trans hpre) ?_ hv
      rintro rfl
      have hlen := hq.length_le
      simp only [List.length_append, List.length_singleton] at hlen
      omega
    have hacc := accounted_of_run ht hal
    obtain ⟨x, y, u, hxy, hx, hy, hu, hun⟩ :=
      duplicated_step (inv_of_reachable ⟨p, ht⟩) (hal.last ht) hstep hne hh hk
    have ho := (hacc.overlap x y u hx hy hu hun).mono hpre
    rcases hxy with ⟨rfl, rfl⟩ | ⟨rfl, rfl⟩
    · exact ho
    · exact ho.symm

/-- No name is duplicated if the usernames in `conn_user_map` are distinct. -/
theorem not_duplicated_of_nodup {s : Connections Hdl}
    (hnodup : (s.server.connUserMap.toList.map fun e => e.2.username).Nodup) (n : Bytes) :
    ¬ s.Duplicated n := by
  rintro ⟨h, k, hne, ⟨u, hu, hun⟩, ⟨v, hv, hvn⟩⟩
  have heq : (h, u) = (k, v) := List.inj_on_of_nodup_map hnodup
    (ExtTreeMap.mem_toList_iff_getElem?_eq_some.mpr hu)
    (ExtTreeMap.mem_toList_iff_getElem?_eq_some.mpr hv) (hun.trans hvn.symm)
  exact hne (congrArg Prod.fst heq)

theorem overlap_in_overlappingRun : Overlap overlappingRun 1 2 := by
  have hfirst : Along step (fun t : Connections ℕ =>
      (t.server.connUserMap.toList.map fun e => e.2.username).Nodup) init overlappingRun.dropLast :=
    along_of_take (by decide)
  refine overlap_of_first_duplicate run_overlappingRun ?_ (by decide)
    ⟨_, rfl, rfl⟩ ⟨_, rfl, (rfl : _ = bytes "bob")⟩
  intro p t hp hne ht
  have hinit : p <+: overlappingRun.dropLast :=
    (List.prefix_concat_iff.mp (show p <+: overlappingRun.dropLast ++ [_] from hp)).resolve_left hne
  exact not_duplicated_of_nodup (hfirst p t hinit ht) _

/-! ## Releasing names -/

/-- **No name is locked out.** The names in use are those of open connections; a name that no open
connection carries is accepted; and when every connection that started is closed or failed, the
registry is empty. -/
theorem names_released {s : Connections Hdl} (hreach : Reachable step init s) :
    (∀ n ∈ s.server.usernames, ∃ h, s.server.Carries h n) ∧
      (∀ h req, req.usernameHeader ≠ [] → (∀ k, ¬ s.server.Carries k req.usernameHeader) →
        (s.server.validateHandler h req).2 = true) ∧
      ((∀ h, s.phase h = .fresh ∨ s.phase h = .closed ∨ s.phase h = .failed) →
        s.server.valMap = ∅ ∧ s.server.connUserMap = ∅ ∧ s.server.usernames = ∅) := by
  have hs : s.Inv := inv_of_reachable hreach
  refine ⟨hs.held, fun h req hne hfree => ?_, fun hdone => ?_⟩
  · refine WebsocketServer.validateHandler_snd.mpr ⟨hne, fun hmem => ?_⟩
    obtain ⟨k, hk⟩ := hs.held _ hmem
    exact hfree k hk
  · have hconn : ∀ h, h ∉ s.server.connUserMap := by
      intro h hm
      have hopen := (hs.mem_connUserMap h).mp hm
      rcases hdone h with hp | hp | hp <;> rw [hopen] at hp <;> cases hp
    refine ⟨?_, ?_, ?_⟩
    · apply ExtTreeMap.eq_empty_iff_forall_not_mem.mpr
      intro h hm
      have hval := (hs.mem_valMap h).mp hm
      rcases hdone h with hp | hp | hp <;> rcases hval with hv | hv <;> rw [hp] at hv <;> cases hv
    · exact ExtTreeMap.eq_empty_iff_forall_not_mem.mpr hconn
    · apply Finset.eq_empty_of_forall_notMem
      intro n hn
      obtain ⟨h, u, hu, -⟩ := hs.held n hn
      exact hconn h (mem_of_getElem? hu)

/-- The duplicates of `overlappingRun` close one after the other. -/
def releasedRun : List (Time × Call ℕ) :=
  overlappingRun ++ [(3, .closeHandler 1), (4, .closeHandler 2)]

theorem releasedRun_runs : (run step init releasedRun).isSome = true := by decide

/-- The state after both duplicates have closed. -/
def released : Connections ℕ := (run step init releasedRun).get releasedRun_runs

theorem run_releasedRun : run step init releasedRun = some released := (Option.some_get _).symm

theorem names_released_releasedRun :
    (released.server.validateHandler 3 (requestNamed "bob")).2 = true ∧
      released.server.valMap = ∅ ∧ released.server.connUserMap = ∅ ∧
      released.server.usernames = ∅ := by
  obtain ⟨-, haccept, hempty⟩ := names_released ⟨releasedRun, run_releasedRun⟩
  have hdone : ∀ h, released.phase h = .fresh ∨ released.phase h = .closed ∨
      released.phase h = .failed := by
    intro h
    match h with
    | 0 => exact .inl rfl
    | 1 => exact .inr (.inl rfl)
    | 2 => exact .inr (.inl rfl)
    | h + 3 => exact .inl rfl
  obtain ⟨hval, hconn, hnames⟩ := hempty hdone
  refine ⟨haccept 3 (requestNamed "bob") (by decide) ?_, hval, hconn, hnames⟩
  rintro k ⟨u, hu, -⟩
  rw [hconn] at hu
  simp at hu

end Connections

end SimpleChat
