import Mathlib.Data.List.Basic

/-!
# Entries of a file

A file of entries: each is a header and a body, with a separator after it. The bodies are not
escaped, so they may contain the separator, and what follows it there may read as another entry.

## Main definitions

* `written sep es`: the file that the entries make
* `Delimited Header sep`: headers have no separator, and none is the beginning of another text that
  begins with a header
* `Sealed Header sep body`: nothing in the body reads as a header after a separator

## Main results

* `written_injective`: sealed bodies under delimited headers can be told apart
* `written_of_not_sealed`: any other body reads as the end of an entry and the beginning of another
-/

namespace Text

variable {α : Type*} {Header : List α → Prop} {sep : α}

/-- The entries, header and body, each with a separator after it. -/
def written (sep : α) (es : List (List α × List α)) : List α :=
  es.flatMap fun e => e.1 ++ (e.2 ++ [sep])

theorem written_cons (e : List α × List α) (es : List (List α × List α)) :
    written sep (e :: es) = e.1 ++ (e.2 ++ sep :: written sep es) := by
  simp [written]

/-- Headers have no separator in them, and a text begins with one header only. -/
structure Delimited (Header : List α → Prop) (sep : α) : Prop where
  free : ∀ h, Header h → sep ∉ h
  eq_of_append : ∀ h h' r r', Header h → Header h' → h ++ r = h' ++ r' → h = h'

/-- What follows a separator in the body does not begin with a header. -/
def Sealed (Header : List α → Prop) (sep : α) (body : List α) : Prop :=
  ∀ u h v, body = u ++ sep :: (h ++ v) → ¬ Header h

/-- A text without the separator stands before the separator that is in it. -/
theorem exists_append_of_not_mem {h r c d : List α} (hfree : sep ∉ h)
    (heq : h ++ r = c ++ sep :: d) : ∃ v, c = h ++ v := by
  rcases List.append_eq_append_iff.mp heq with ⟨v, hv, -⟩ | ⟨v, hv, hrest⟩
  · exact ⟨v, hv⟩
  · cases v with
    | nil => exact ⟨[], by rw [hv, List.append_nil, List.append_nil]⟩
    | cons x v =>
      obtain ⟨rfl, -⟩ := List.cons.inj hrest
      rw [hv] at hfree
      exact absurd (List.mem_append_right _ (List.mem_cons_self ..)) hfree

/-- A sealed body that begins like another one, with entries after it, is no longer. -/
theorem eq_nil_of_sealed (hdel : Delimited Header sep) {body c r : List α}
    {es : List (List α × List α)} (hes : ∀ e ∈ es, Header e.1)
    (hsealed : Sealed Header sep (body ++ c))
    (heq : sep :: written sep es = c ++ sep :: r) : c = [] := by
  cases c with
  | nil => rfl
  | cons x c =>
    obtain ⟨rfl, hrest⟩ := List.cons.inj heq
    cases es with
    | nil => simp [written] at hrest
    | cons e es =>
      -- the next entry would begin within the body
      rw [written_cons] at hrest
      have hhead := hes e (List.mem_cons_self ..)
      obtain ⟨v, rfl⟩ := exists_append_of_not_mem (hdel.free _ hhead) hrest
      exact absurd hhead (hsealed body e.1 v rfl)

/-- Sealed bodies can be told apart before a separator and more entries. -/
theorem sealed_append_inj (hdel : Delimited Header sep) {body body' : List α}
    {xs ys : List (List α × List α)} (hxs : ∀ e ∈ xs, Header e.1) (hys : ∀ e ∈ ys, Header e.1)
    (hbody : Sealed Header sep body) (hbody' : Sealed Header sep body')
    (h : body ++ sep :: written sep xs = body' ++ sep :: written sep ys) :
    body = body' ∧ written sep xs = written sep ys := by
  rcases List.append_eq_append_iff.mp h with ⟨c, rfl, hr⟩ | ⟨c, rfl, hr⟩
  · obtain rfl := eq_nil_of_sealed hdel hxs hbody' hr
    exact ⟨(List.append_nil _).symm, (List.cons.inj hr).2⟩
  · obtain rfl := eq_nil_of_sealed hdel hys hbody hr
    exact ⟨List.append_nil _, (List.cons.inj hr).2.symm⟩

/-- **A file of sealed entries has them as its only reading.** -/
theorem written_injective (hdel : Delimited Header sep) {xs ys : List (List α × List α)}
    (hxs : ∀ e ∈ xs, Header e.1 ∧ Sealed Header sep e.2)
    (hys : ∀ e ∈ ys, Header e.1 ∧ Sealed Header sep e.2)
    (h : written sep xs = written sep ys) : xs = ys := by
  induction xs generalizing ys with
  | nil =>
    cases ys with
    | nil => rfl
    | cons y ys => simp [written] at h
  | cons x xs ih =>
    cases ys with
    | nil => simp [written] at h
    | cons y ys =>
      rw [written_cons, written_cons] at h
      obtain ⟨⟨hx, hxbody⟩, hxs⟩ := List.forall_mem_cons.mp hxs
      obtain ⟨⟨hy, hybody⟩, hys⟩ := List.forall_mem_cons.mp hys
      have hhead : x.1 = y.1 := hdel.eq_of_append _ _ _ _ hx hy h
      rw [hhead] at h
      obtain ⟨hbody, hrest⟩ := sealed_append_inj hdel (fun e he => (hxs e he).1)
        (fun e he => (hys e he).1) hxbody hybody (List.append_cancel_left h)
      rw [ih hxs hys hrest, Prod.ext hhead hbody]

/-- A body that is not sealed makes the same file as two entries. -/
theorem written_of_not_sealed {body : List α} (h : ¬ Sealed Header sep body) (head : List α) :
    ∃ u h' v, Header h' ∧ written sep [(head, body)] = written sep [(head, u), (h', v)] := by
  simp only [Sealed, not_forall, not_not] at h
  obtain ⟨u, h', v, rfl, hh⟩ := h
  exact ⟨u, h', v, hh, by simp [written]⟩

end Text
