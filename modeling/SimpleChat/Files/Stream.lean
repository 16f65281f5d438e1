import SimpleChat.Transition.Run
import Mathlib.Logic.Function.Basic

/-!
# Files and output streams

The content of the files that exist, by path, and the streams that write to them.

## Main definitions

* `Store κ β`: the files, with paths `κ` and contents over `β`
* `content fs p`: the content of a file, empty if it does not exist
* `openStream`: a stream opened to append to a file or to replace it, where the opening may fail
* `Stream.put`: output on a stream
* `Grows p text fs fs'`: from `fs` to `fs'`, `p` is unchanged or followed by `text`, and nothing
  else changes
* `Gains texts before after`: a content has gained some of the texts and lost nothing

## Main results

* `openStream_app_put`, `openStream_out_put`: what an opening and one output do to the file
* `grows_replace_iff`: replacing a file loses nothing exactly if there was nothing to lose
* `gains_of_run`: along a run of growing steps each file gains some of its texts, in order
-/

namespace Files

variable {κ β : Type*}

/-- The content of the files that exist. -/
abbrev Store (κ β : Type*) := κ → Option (List β)

/-- The content of a file, empty if there is none. -/
def content (fs : Store κ β) (p : κ) : List β := (fs p).getD []

/-- How a stream is opened: `out` empties the file, `app` keeps it; both create it if missing. -/
inductive Mode where
  | out
  | app
  deriving DecidableEq, Repr

/-- A stream on a file, with its fail bit. -/
structure Stream (κ : Type*) where
  path : κ
  fail : Bool
  deriving DecidableEq, Repr

variable [DecidableEq κ]

/-- Opening a stream. An opening that is not granted sets the fail bit and changes nothing. -/
def openStream (mode : Mode) (granted : Bool) (p : κ) (fs : Store κ β) : Stream κ × Store κ β :=
  if granted then
    (⟨p, false⟩, Function.update fs p (some (match mode with
      | .out => []
      | .app => content fs p)))
  else (⟨p, true⟩, fs)

/-- Output at the end of the file; none on a stream that has failed. -/
def Stream.put (f : Stream κ) (text : List β) (fs : Store κ β) : Store κ β :=
  if f.fail then fs else Function.update fs f.path (some (content fs f.path ++ text))

@[simp] theorem content_update_self (fs : Store κ β) (p : κ) (bs : List β) :
    content (Function.update fs p (some bs)) p = bs := by
  simp [content]

/-- An opening for appending and one output. -/
theorem openStream_app_put (p : κ) (text : List β) (fs : Store κ β) :
    (openStream .app true p fs).1.put text (openStream .app true p fs).2 =
      Function.update fs p (some (content fs p ++ text)) := by
  simp [openStream, Stream.put]

/-- An opening for replacing and one output. -/
theorem openStream_out_put (p : κ) (text : List β) (fs : Store κ β) :
    (openStream .out true p fs).1.put text (openStream .out true p fs).2 =
      Function.update fs p (some text) := by
  simp [openStream, Stream.put]

/-- The file is left as it was or followed by the text, and no other file changes. -/
structure Grows (p : κ) (text : List β) (fs fs' : Store κ β) : Prop where
  grown : content fs' p = content fs p ∨ content fs' p = content fs p ++ text
  frame : ∀ q, q ≠ p → fs' q = fs q

omit [DecidableEq κ] in
theorem grows_refl (p : κ) (text : List β) (fs : Store κ β) : Grows p text fs fs :=
  ⟨.inl rfl, fun _ _ => rfl⟩

theorem grows_append (p : κ) (text : List β) (fs : Store κ β) :
    Grows p text fs (Function.update fs p (some (content fs p ++ text))) :=
  ⟨.inr (content_update_self ..), fun _ hq => Function.update_of_ne hq _ _⟩

/-- Replacing a file by a text makes it grow exactly if nothing is lost. -/
theorem grows_replace_iff {p : κ} {text : List β} {fs : Store κ β} :
    Grows p text fs (Function.update fs p (some text)) ↔
      content fs p = [] ∨ content fs p = text := by
  constructor
  · rintro ⟨hgrown, -⟩
    rw [content_update_self] at hgrown
    rcases hgrown with h | h
    · exact .inr h.symm
    · exact .inl (List.self_eq_append_left.mp h)
  · intro h
    refine ⟨?_, fun _ hq => Function.update_of_ne hq _ _⟩
    rw [content_update_self]
    rcases h with h | h
    · exact .inr (by rw [h, List.nil_append])
    · exact .inl h.symm

/-! ## Growth along a run -/

/-- The content has gained some of the texts, in their order, and lost nothing. -/
def Gains (texts : List (List β)) (before after : List β) : Prop :=
  ∃ ts : List (List β), ts.Sublist texts ∧ after = before ++ ts.flatten

section Run

open Transition

variable {α : Type*} {next : Store κ β → α → Option (Store κ β)} {C : Store κ β → α → Prop}
  {path : α → κ} {text : α → List β}

/-- Where every step that meets a condition lets its file grow by its text, a run of such steps
adds to each file some of the texts meant for it. -/
theorem gains_of_run
    (hgrows : ∀ fs a fs', C fs a → next fs a = some fs' → Grows (path a) (text a) fs fs')
    {fs fs' : Store κ β} {as : List α} (hmeets : Meets next C fs as)
    (hrun : run next fs as = some fs') (q : κ) :
    Gains ((as.filter fun a => decide (path a = q)).map text) (content fs q) (content fs' q) := by
  refine run_history_induction (P := fun as t => Meets next C fs as →
    Gains ((as.filter fun a => decide (path a = q)).map text) (content fs q) (content t q))
    ?_ ?_ hrun hmeets
  · exact fun _ => ⟨[], List.Sublist.refl _, by simp⟩
  · intro as t a u hp ih hstep hm
    obtain ⟨hmas, hlast⟩ := meets_concat.mp hm
    obtain ⟨ts, hsub, hcontent⟩ := ih hmas
    have hg := hgrows t a u (hlast t hp) hstep
    rw [List.filter_append, List.map_append]
    by_cases hq : path a = q
    · subst hq
      rcases hg.grown with hsame | happend
      · exact ⟨ts, hsub.trans (List.sublist_append_left _ _), hsame.trans hcontent⟩
      · refine ⟨ts ++ [text a], hsub.append (by simp), ?_⟩
        rw [happend, hcontent, List.flatten_concat, List.append_assoc]
    · refine ⟨ts, hsub.trans (List.sublist_append_left _ _), ?_⟩
      rw [content, hg.frame q (Ne.symm hq)]
      exact hcontent

end Run

end Files
