import SimpleChat.EventBus.Subscriptions

/-!
# The two copies of the subscription relation

The receivers keep the relation by receiver, the index keeps it by event. A removal leaves the
events of the receiver behind, so that a receiver that is added again claims events the index does
not list it for. And an entry of the index is created by looking it up, so that a call for an event
without subscribers can leave an empty one, for which `SendSync` reports a delivery to nobody.

## Main definitions

* `Agree`: a registered receiver claims exactly the events whose delivery runs its callback
* `AddedEmpty`: the condition on a call, that a receiver is added without events
* `Truthful`: `SendSync` reports a delivery exactly if it runs a callback
* `FindsEntries`: the condition on a call, that it erases from entries that exist

## Main results

* `agree_along_iff`: the copies agree along a run exactly if every receiver is added without events
* `truthful_along_iff`: `SendSync` is truthful, and no entry is empty, along a run exactly if every
  call finds the entries it erases from
-/

namespace SimpleChat

open Containers Std Transition

namespace Subscriptions

/-- A change that relates the receiver to a valid event keeps all pairs valid. -/
theorem valid_change {s : Subscriptions} (hs : ∀ p ∈ s.pairs, p.2.IsValid) {id : ReceiverId}
    {e : EventId} {pairs : Finset (ReceiverId × EventId)}
    (hpairs : e.IsValid → ∀ p ∈ pairs, p.2.IsValid) :
    ∀ p ∈ (s.change id e pairs).2.pairs, p.2.IsValid := by
  unfold change
  split
  · exact hs
  · next hv =>
    split
    · exact hpairs (not_not.mp hv)
    · exact hs

theorem valid_step {s : Subscriptions} (hs : ∀ p ∈ s.pairs, p.2.IsValid) (c : BusCall ReceiverId) :
    ∀ p ∈ (s.step c).2.pairs, p.2.IsValid := by
  cases c with
  | addReceiver id =>
    rw [step]
    split <;> exact hs
  | removeReceiver id =>
    rw [step]
    split
    · exact fun p hp => hs p (Finset.mem_filter.mp hp).1
    · exact hs
  | subscribe id e =>
    refine valid_change hs fun hv p hp => ?_
    rcases Finset.mem_insert.mp hp with rfl | hp
    · exact hv
    · exact hs p hp
  | unsubscribe id e =>
    exact valid_change hs fun _ p hp => hs p (Finset.mem_of_mem_erase hp)

/-- The events of related pairs are valid. -/
theorem valid_of_mem_after (calls : List (BusCall ReceiverId)) :
    ∀ p ∈ (after calls).pairs, p.2.IsValid := by
  induction calls using List.reverseRecOn with
  | nil => simp [after, empty]
  | append_singleton calls c ih =>
    rw [after, List.foldl_append]
    exact valid_step ih c

end Subscriptions

namespace EventBus

variable {Ref : Type} [DecidableEq Ref]

/-- Every state of the bus simulates some relation of valid pairs. -/
theorem exists_refines {receivers : Ref → EventReceiver} {b : EventBus Ref}
    (h : Reachable next (init receivers) b) :
    ∃ s : Subscriptions, b.Refines s ∧ ∀ p ∈ s.pairs, p.2.IsValid := by
  obtain ⟨calls, hrun⟩ := h
  obtain ⟨b', hb', href, -⟩ := refines_run receivers calls
  obtain rfl : b = b' := Option.some.inj (hrun.symm.trans hb')
  exact ⟨_, href, Subscriptions.valid_of_mem_after _⟩

/-! ## Agreement -/

/-- The receiver registered under an id claims exactly the events that the index lists the id for,
and these are exactly the events whose delivery runs its callback. -/
def Agree (b : EventBus Ref) : Prop :=
  ∀ id ref e, b.Registered id ref →
    ((b.receivers ref).containsEvent e = true ↔ b.Indexed id e) ∧
      (b.Indexed id e ↔ ∃ ret threads, b.sendSync e = some (ret, threads) ∧ ref ∈ threads)

/-- The claims of the registered receivers are what the index says. -/
def ClaimsAgree (b : EventBus Ref) : Prop :=
  ∀ id ref e, b.Registered id ref → (e ∈ (b.receivers ref).events ↔ b.Indexed id e)

/-- A receiver that is added has no events. -/
def AddedEmpty (b : EventBus Ref) : BusCall Ref → Prop
  | .addReceiver ref => b.eventReceivers (b.receivers ref).id = none →
      ∀ e, (b.receivers ref).containsEvent e = false
  | _ => True

omit [DecidableEq Ref] in
/-- A delivery runs the callbacks of the receivers that the index lists. -/
theorem indexed_iff_delivered {b : EventBus Ref} {s : Subscriptions} (h : b.Refines s)
    (hs : ∀ p ∈ s.pairs, p.2.IsValid) {id : ReceiverId} {ref : Ref} (hr : b.Registered id ref)
    (e : EventId) :
    b.Indexed id e ↔ ∃ ret threads, b.sendSync e = some (ret, threads) ∧ ref ∈ threads := by
  by_cases hv : e.IsValid
  · obtain ⟨ret, threads, hsend, -, hown, hmem⟩ :=
      sendSync_spec h.toWellFormed hv fun _ => h.exists_of_indexed
    rw [← hmem, hsend]
    constructor
    · intro hid
      obtain ⟨r, hrt, hrid⟩ := List.mem_map.mp hid
      have hrid' := hown r hrt
      rw [hrid] at hrid'
      obtain rfl := hr.unique hrid'
      exact ⟨ret, threads, rfl, hrt⟩
    · rintro ⟨_, _, hsame, hrt⟩
      cases hsame
      exact List.mem_map.mpr ⟨ref, hrt, h.own_id id ref hr⟩
  · -- an event that is not valid has no entry and is not delivered
    refine iff_of_false (fun hid => hv (hs _ ((h.indexed id e).mp hid))) ?_
    rintro ⟨ret, threads, hsend, hrt⟩
    rw [sendSync, if_neg (fun hne => hv (EventId.isValid_iff.mpr hne))] at hsend
    cases hsend
    cases hrt

omit [DecidableEq Ref] in
theorem agree_iff_claimsAgree {b : EventBus Ref} {s : Subscriptions} (h : b.Refines s)
    (hs : ∀ p ∈ s.pairs, p.2.IsValid) : b.Agree ↔ b.ClaimsAgree := by
  constructor
  · intro ha id ref e hr
    rw [← containsEvent_iff]
    exact (ha id ref e hr).1
  · intro hc id ref e hr
    refine ⟨?_, indexed_iff_delivered h hs hr e⟩
    rw [containsEvent_iff]
    exact hc id ref e hr

/-- Changing the events of a registered receiver, and the index at its id alike, keeps the claims of
all receivers in agreement. -/
theorem ClaimsAgree.replace {b : EventBus Ref} (hwf : b.WellFormed) (ha : b.ClaimsAgree)
    {id : ReceiverId} {ref : Ref} (hr : b.Registered id ref) {r : EventReceiver}
    {m : Index EventId ReceiverId} (hown : ∀ e, e ∈ r.events ↔ m.Listed id e)
    (hother : ∀ k e, k ≠ id → (m.Listed k e ↔ b.Indexed k e)) :
    ClaimsAgree { b with
      receivers := Function.update b.receivers ref r, eventToReceiversMap := m } := by
  intro k x e hx
  have hx' : b.Registered k x := hx
  by_cases hk : k = id
  · subst hk
    obtain rfl : x = ref := hx'.unique hr
    simpa [Indexed] using hown e
  · have hne : x ≠ ref := by
      rintro rfl
      exact hk ((hwf.own_id k x hx').symm.trans (hwf.own_id id x hr))
    rw [Indexed, hother k e hk]
    simpa [hne] using ha k x e hx'

/-- From a state in which the claims agree, a call keeps them so exactly if it adds no receiver that
has events. -/
theorem claimsAgree_next {b b' : EventBus Ref} {s : Subscriptions} (h : b.Refines s)
    (ha : b.ClaimsAgree) {c : BusCall Ref} (hc : b.next c = some b') :
    b'.ClaimsAgree ↔ b.AddedEmpty c := by
  cases call_cases h.toWellFormed hc with
  | refused c hrefused =>
    refine iff_of_true ha ?_
    cases c with
    | addReceiver ref => exact fun hfree => absurd hfree hrefused
    | _ => trivial
  | added ref hfree =>
    have hnone : ∀ e, ¬ b.Indexed (b.receivers ref).id e := fun e hid =>
      (h.free _).mp hfree (h.pairs_registered _ e ((h.indexed _ e).mp hid))
    constructor
    · intro ha' _ e
      have hclaim := ha' (b.receivers ref).id ref e (by simp [Registered])
      rw [Bool.eq_false_iff, ne_eq, containsEvent_iff]
      exact fun hmem => hnone e (hclaim.mp hmem)
    · intro hempty k x e hx
      by_cases hk : k = (b.receivers ref).id
      · subst hk
        obtain rfl : ref = x := by simpa [Registered] using hx
        have hnot := hempty hfree e
        rw [Bool.eq_false_iff, ne_eq, containsEvent_iff] at hnot
        exact iff_of_false hnot (hnone e)
      · exact ha k x e (by simpa [Registered, hk] using hx)
  | removed id ref hr =>
    refine iff_of_true (fun k x e hx => ?_) trivial
    have hk : k ≠ id := by
      rintro rfl
      simp [Registered] at hx
    rw [Indexed, indexed_removeReceiver, and_iff_right fun hid => hk hid.1]
    exact ha k x e (by simpa [Registered, hk] using hx)
  | subscribed id e ref hv hr =>
    refine iff_of_true (ha.replace h.toWellFormed hr (fun f => ?_) fun k f hk => ?_) trivial
    · rw [addEvent_events hv, Index.listed_insert, ha id ref f hr]
      simp [Indexed]
    · rw [Index.listed_insert, or_iff_right fun hid => hk hid.1]
      rfl
  | unsubscribed id e ref hv hr =>
    refine iff_of_true (ha.replace h.toWellFormed hr (fun f => ?_) fun k f hk => ?_) trivial
    · rw [removeEvent_events hv, Index.listed_erase, ha id ref f hr]
      simp [Indexed]
    · rw [Index.listed_erase, and_iff_right fun hid => hk hid.1]
      rfl

/-- **The copies of the relation agree along a run exactly if every receiver is added without
events.** -/
theorem agree_along_iff (receivers : Ref → EventReceiver) (calls : List (BusCall Ref)) :
    Along next Agree (init receivers) calls ↔ Meets next AddedEmpty (init receivers) calls := by
  obtain ⟨b, hrun, -⟩ := refines_run receivers calls
  refine along_iff_meets ?_ (fun t c u ht ha hc => ?_) hrun
  · intro id ref e hr
    cases hr
  · obtain ⟨s, href, hs⟩ := exists_refines ht
    obtain ⟨s', href', hs'⟩ := exists_refines (ht.concat hc)
    rw [agree_iff_claimsAgree href hs] at ha
    rw [agree_iff_claimsAgree href' hs']
    exact claimsAgree_next href ha hc

/-- One receiver, with the id 5 and without events. -/
def newReceiver : Unit → EventReceiver := fun _ => ⟨5, ∅⟩

/-- A receiver is removed while it is subscribed, and added again. -/
def addedAgain : List (BusCall Unit) :=
  [.addReceiver (), .subscribe 5 .newMessage, .removeReceiver 5, .addReceiver ()]

theorem addedAgain_runs : (run next (init newReceiver) addedAgain).isSome = true := by decide

/-- The bus after the receiver was added again. -/
def stale : EventBus Unit := (run next (init newReceiver) addedAgain).get addedAgain_runs

/-- A receiver that was removed while it was subscribed, and added again, claims an event whose
delivery does not run its callback. -/
theorem readded_receiver_claims_stale :
    Reachable next (init newReceiver) stale ∧ stale.Registered 5 () ∧
      (stale.receivers ()).containsEvent .newMessage = true ∧
      stale.sendSync .newMessage = some (.noReceiversForEvent, []) ∧ ¬ stale.Agree := by
  have hcontains : (stale.receivers ()).containsEvent .newMessage = true := by decide
  have hsend : stale.sendSync .newMessage = some (.noReceiversForEvent, []) := by decide
  refine ⟨⟨addedAgain, (Option.some_get _).symm⟩, rfl, hcontains, hsend, fun ha => ?_⟩
  obtain ⟨hclaim, hdelivered⟩ := ha 5 () .newMessage rfl
  obtain ⟨ret, threads, hsend', hmem⟩ := hdelivered.mp (hclaim.mp hcontains)
  rw [hsend] at hsend'
  cases hsend'
  cases hmem

/-! ## Truthful deliveries -/

/-- `SendSync` of a valid event returns `RET_OK` exactly if it runs a callback, and
`RET_NO_RECEIVERS_FOR_EVENT` otherwise. -/
def Truthful (b : EventBus Ref) : Prop :=
  ∀ e, e.IsValid → ∃ ret threads, b.sendSync e = some (ret, threads) ∧
    (ret = .ok ↔ threads ≠ []) ∧ (threads = [] → ret = .noReceiversForEvent)

/-- No entry of `event_to_receivers_map` is an empty set. -/
def NoEmptyEntry (b : EventBus Ref) : Prop := b.eventToReceiversMap.NoEmpty

/-- The call erases from entries that exist only. -/
def FindsEntries (b : EventBus Ref) : BusCall Ref → Prop
  | .removeReceiver id => ∀ ref, b.Registered id ref → ∀ e ∈ (b.receivers ref).events,
      ∃ ids, b.eventToReceiversMap.sets e = some ids
  | .unsubscribe id e => e.IsValid → (∃ ref, b.Registered id ref) →
      ∃ ids, b.eventToReceiversMap.sets e = some ids
  | _ => True

/-- From a state without empty entries, a call leaves none exactly if it finds the entries it erases
from. -/
theorem noEmptyEntry_next {b b' : EventBus Ref} (hwf : b.WellFormed) (hb : b.NoEmptyEntry)
    {c : BusCall Ref} (hc : b.next c = some b') : b'.NoEmptyEntry ↔ b.FindsEntries c := by
  cases call_cases hwf hc with
  | refused c hrefused =>
    refine iff_of_true hb ?_
    cases c with
    | removeReceiver id => exact fun ref hr => absurd ⟨ref, hr⟩ hrefused
    | unsubscribe id e => exact fun hv hr => absurd ⟨hv, hr⟩ hrefused
    | _ => trivial
  | added ref hfree => exact iff_of_true hb trivial
  | removed id ref hr =>
    have hnodup : (b.receivers ref).getEvents.toList.Nodup :=
      ExtTreeSet.distinct_toList.imp fun {x y} hne heq => hne (by simp [heq])
    refine (Index.noEmpty_foldl_erase hnodup hb id).trans ?_
    simp only [ExtTreeSet.mem_toList, EventReceiver.getEvents]
    constructor
    · intro hfinds x hx
      obtain rfl : x = ref := hx.unique hr
      exact hfinds
    · exact fun hfinds => hfinds ref hr
  | subscribed id e ref hv hr => exact iff_of_true (Index.noEmpty_insert hb id e) trivial
  | unsubscribed id e ref hv hr =>
    refine (Index.noEmpty_erase hb id e).trans ⟨fun hids _ _ => hids, fun hfinds => ?_⟩
    exact hfinds hv ⟨ref, hr⟩

/-- The entries of the index, and the events of every receiver, are of valid events. -/
structure ValidEvents (b : EventBus Ref) : Prop where
  entries : ∀ e ids, b.eventToReceiversMap.sets e = some ids → e.IsValid
  claims : ∀ ref, ∀ e ∈ (b.receivers ref).events, e.IsValid

/-- Replacing the events of a receiver by valid ones, and the index by one of valid events. -/
theorem ValidEvents.replace {b : EventBus Ref} (hb : b.ValidEvents) {ref : Ref} {r : EventReceiver}
    {m : Index EventId ReceiverId} (hm : ∀ e ids, m.sets e = some ids → e.IsValid)
    (hr : ∀ e ∈ r.events, e.IsValid) :
    ValidEvents { b with
      receivers := Function.update b.receivers ref r, eventToReceiversMap := m } where
  entries := hm
  claims x e he := by
    by_cases hx : x = ref
    · subst hx
      exact hr e (by simpa using he)
    · exact hb.claims x e (by simpa [hx] using he)

theorem validEvents_next {b b' : EventBus Ref} (hwf : b.WellFormed) (hb : b.ValidEvents)
    {c : BusCall Ref} (hc : b.next c = some b') : b'.ValidEvents := by
  cases call_cases hwf hc with
  | refused c hrefused => exact hb
  | added ref hfree => exact ⟨hb.entries, hb.claims⟩
  | removed id ref hr =>
    refine ⟨fun e ids hids => ?_, hb.claims⟩
    by_cases he : e ∈ (b.receivers ref).events
    · exact hb.claims ref e he
    · -- an event that the receiver does not claim keeps its entry
      have hnot : e ∉ (b.receivers ref).getEvents.toList := by
        rwa [ExtTreeSet.mem_toList]
      rw [Index.sets_foldl_erase_of_not_mem hnot] at hids
      exact hb.entries e ids hids
  | subscribed id e ref hv hr =>
    refine hb.replace (fun f ids hids => ?_) fun f hf => ?_
    · by_cases hfe : f = e
      · exact hfe ▸ hv
      · exact hb.entries f ids (by simpa [Index.insert, hfe] using hids)
    · rcases (addEvent_events hv f).mp hf with rfl | hf
      · exact hv
      · exact hb.claims ref f hf
  | unsubscribed id e ref hv hr =>
    refine hb.replace (fun f ids hids => ?_) fun f hf => ?_
    · by_cases hfe : f = e
      · exact hfe ▸ hv
      · rw [Index.sets_erase_of_ne _ _ hfe] at hids
        exact hb.entries f ids hids
    · exact hb.claims ref f ((removeEvent_events hv f).mp hf).2

theorem validEvents_of_reachable {receivers : Ref → EventReceiver}
    (hempty : ∀ ref e, e ∉ (receivers ref).events) {b : EventBus Ref}
    (h : Reachable next (init receivers) b) : b.ValidEvents := by
  obtain ⟨calls, hrun⟩ := h
  refine run_history_induction (P := fun _ b => b.ValidEvents) ?_ ?_ hrun
  · refine ⟨fun e ids hids => ?_, fun ref e he => absurd he (hempty ref e)⟩
    cases hids
  · intro p t c u hp ht hc
    obtain ⟨s, href, -⟩ := exists_refines ⟨p, hp⟩
    exact validEvents_next href.toWellFormed ht hc

omit [DecidableEq Ref] in
/-- A delivery runs as many callbacks as the entry of its event has ids. -/
theorem sendSync_of_entry {b : EventBus Ref} {s : Subscriptions} (h : b.Refines s) {e : EventId}
    (hv : e.IsValid) {ids : ExtTreeSet ReceiverId compare}
    (hids : b.eventToReceiversMap.sets e = some ids) :
    ∃ threads, b.sendSync e = some (.ok, threads) ∧ (threads = [] ↔ ∀ id, id ∉ ids) := by
  obtain ⟨ret, threads, hsend, -, -, hmem⟩ :=
    sendSync_spec h.toWellFormed hv fun _ => h.exists_of_indexed
  have hret : ret = .ok := by
    rw [sendSync, if_pos (EventId.isValid_iff.mp hv), hids] at hsend
    obtain ⟨_, -, hpair⟩ := Option.map_eq_some_iff.mp hsend
    exact (congrArg Prod.fst hpair).symm
  have hindexed : ∀ id, b.Indexed id e ↔ id ∈ ids := fun id => by
    simp [Indexed, Index.Listed, hids]
  refine ⟨threads, hret ▸ hsend, ?_⟩
  constructor
  · rintro rfl id hid
    simpa using (hmem id).mpr ((hindexed id).mpr hid)
  · intro hnone
    refine List.eq_nil_iff_forall_not_mem.mpr fun r hr => ?_
    exact hnone _ ((hindexed _).mp ((hmem _).mp (List.mem_map_of_mem hr)))

omit [DecidableEq Ref] in
/-- `SendSync` is truthful exactly if no entry is an empty set. -/
theorem truthful_iff {b : EventBus Ref} {s : Subscriptions} (h : b.Refines s)
    (hvalid : b.ValidEvents) : b.Truthful ↔ b.NoEmptyEntry := by
  constructor
  · intro ht e ids hids
    have hv := hvalid.entries e ids hids
    obtain ⟨threads, hsend, hnil⟩ := sendSync_of_entry h hv hids
    obtain ⟨ret, threads', hsend', hok, -⟩ := ht e hv
    rw [hsend] at hsend'
    cases hsend'
    by_contra hnone
    push Not at hnone
    exact hok.mp rfl (hnil.mpr hnone)
  · intro hne e hv
    cases hids : b.eventToReceiversMap.sets e with
    | none =>
      have hsend : b.sendSync e = some (.noReceiversForEvent, []) := by
        simp [sendSync, EventId.isValid_iff.mp hv, hids]
      exact ⟨_, _, hsend, by simp, fun _ => rfl⟩
    | some ids =>
      obtain ⟨threads, hsend, hnil⟩ := sendSync_of_entry h hv hids
      obtain ⟨id, hid⟩ := hne e ids hids
      have hsome : threads ≠ [] := fun ht => hnil.mp ht id hid
      exact ⟨_, _, hsend, iff_of_true rfl hsome, fun ht => absurd ht hsome⟩

/-- **`SendSync` reports deliveries truthfully along a run exactly if every call finds the entries it
erases from**; equivalently, no entry is ever an empty set. -/
theorem truthful_along_iff {receivers : Ref → EventReceiver}
    (hempty : ∀ ref e, e ∉ (receivers ref).events) (calls : List (BusCall Ref)) :
    Along next (fun b => b.Truthful ∧ b.NoEmptyEntry) (init receivers) calls ↔
      Meets next FindsEntries (init receivers) calls := by
  obtain ⟨b, hrun, -⟩ := refines_run receivers calls
  -- in every reachable state the two properties are one
  have hsame : ∀ t, Reachable next (init receivers) t →
      (t.Truthful ∧ t.NoEmptyEntry ↔ t.NoEmptyEntry) := by
    intro t ht
    obtain ⟨s, href, -⟩ := exists_refines ht
    rw [truthful_iff href (validEvents_of_reachable hempty ht), and_self_iff]
  refine along_iff_meets ?_ (fun t c u ht hgood hc => ?_) hrun
  · exact (hsame _ (Reachable.refl _)).mpr Index.noEmpty_empty
  · obtain ⟨s, href, -⟩ := exists_refines ht
    rw [hsame u (ht.concat hc)]
    exact noEmptyEntry_next href.toWellFormed hgood.2 hc

/-- A receiver unsubscribes from an event that nobody subscribed to. -/
def unsubscribedEarly : List (BusCall Unit) := [.addReceiver (), .unsubscribe 5 .newMessage]

theorem unsubscribedEarly_runs : (run next (init newReceiver) unsubscribedEarly).isSome = true := by
  decide

/-- The bus with an empty entry. -/
def hollow : EventBus Unit :=
  (run next (init newReceiver) unsubscribedEarly).get unsubscribedEarly_runs

/-- After the call, a delivery to nobody is reported as `RET_OK`. -/
theorem early_unsubscription_reports_delivery :
    Reachable next (init newReceiver) hollow ∧ hollow.sendSync .newMessage = some (.ok, []) ∧
      ¬ (hollow.Truthful ∧ hollow.NoEmptyEntry) := by
  have hsend : hollow.sendSync .newMessage = some (.ok, []) := by decide
  refine ⟨⟨unsubscribedEarly, (Option.some_get _).symm⟩, hsend, fun hgood => ?_⟩
  obtain ⟨ret, threads, hsend', hok, -⟩ := hgood.1 .newMessage (by decide)
  rw [hsend] at hsend'
  cases hsend'
  exact hok.mp rfl rfl

theorem truthful_along_unsubscribedEarly :
    Along next (fun b => b.Truthful ∧ b.NoEmptyEntry) (init newReceiver) unsubscribedEarly ↔
      Meets next FindsEntries (init newReceiver) unsubscribedEarly :=
  truthful_along_iff (fun _ _ => ExtTreeSet.not_mem_empty) unsubscribedEarly

end EventBus

end SimpleChat
