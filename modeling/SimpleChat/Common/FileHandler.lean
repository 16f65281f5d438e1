import SimpleChat.Common.Basic
import SimpleChat.Files.Stream

/-!
# Writing files

`FileAppendOrWrite` appends to a file and falls back to writing it when the append cannot open it.
An opening for appending creates a missing file, so the fallback is of use for no file; where the
append fails on a file that exists and the second opening succeeds, it replaces what was there.

## Main definitions

* `fileWrite`, `fileAppend`, `fileAppendOrWrite`: the functions of the file handler
* `FileCall`: a call of `fileAppendOrWrite`, with the openings that would be granted
* `FileCall.Keeps`: the file grows by the text or stays, and no other file changes
* `FileCall.Lossless`: the condition on a call, that the fallback replaces nothing

## Main results

* `keeps_along_iff`: no call of a run loses anything exactly if every call is lossless
* `gains_of_lossless`: along a run of lossless calls the files only gain texts
-/

namespace SimpleChat

open Files Transition

/-- The files, by path. -/
abbrev FileStore := Store Bytes UInt8

def fileCheck (file : Stream Bytes) : ReturnType := if file.fail then .notOk else .ok

/-- The output of a stream that has failed is lost; nothing checks it here. -/
def fileWrite (granted : Bool) (filePath text : Bytes) (fs : FileStore) : FileStore :=
  let (file, fs) := openStream .out granted filePath fs
  file.put text fs

def fileAppend (granted : Bool) (filePath text : Bytes) (fs : FileStore) :
    ReturnType × FileStore :=
  let (file, fs) := openStream .app granted filePath fs
  let ret := fileCheck file
  (ret, if ret = .ok then file.put text fs else fs)

/-- A call of `FileAppendOrWrite`, and whether its two openings are granted if they are tried. -/
structure FileCall where
  filePath : Bytes
  text : Bytes
  appendGranted : Bool
  writeGranted : Bool
  deriving DecidableEq, Repr

def fileAppendOrWrite (fs : FileStore) (c : FileCall) : FileStore :=
  let (ret, fs) := fileAppend c.appendGranted c.filePath c.text fs
  if ret ≠ .ok then fileWrite c.writeGranted c.filePath c.text fs else fs

/-- What a call does: it appends, it replaces the file, or it does nothing. -/
theorem fileAppendOrWrite_eq (fs : FileStore) (c : FileCall) :
    fileAppendOrWrite fs c =
      if c.appendGranted then
        Function.update fs c.filePath (some (content fs c.filePath ++ c.text))
      else if c.writeGranted then Function.update fs c.filePath (some c.text)
      else fs := by
  obtain ⟨p, text, _ | _, _ | _⟩ := c
  · rfl
  · exact openStream_out_put p text fs
  · exact openStream_app_put p text fs
  · exact openStream_app_put p text fs

namespace FileCall

/-- One call after another. -/
def step (fs : FileStore) (c : FileCall) : Option FileStore := some (fileAppendOrWrite fs c)

/-- The content of the file stays, alone or with the whole text after it, and no other file
changes. -/
def Keeps (fs : FileStore) (c : FileCall) : Prop :=
  Grows c.filePath c.text fs (fileAppendOrWrite fs c)

/-- The fallback is not taken, cannot open the file either, or finds it empty or equal to the
text. -/
def Lossless (fs : FileStore) (c : FileCall) : Prop :=
  c.appendGranted = true ∨ c.writeGranted = false ∨ content fs c.filePath = [] ∨
    content fs c.filePath = c.text

theorem keeps_iff (fs : FileStore) (c : FileCall) : Keeps fs c ↔ Lossless fs c := by
  rw [Keeps, fileAppendOrWrite_eq]
  obtain ⟨p, text, appendGranted, writeGranted⟩ := c
  cases appendGranted with
  | true => exact iff_of_true (grows_append p text fs) (.inl rfl)
  | false =>
    cases writeGranted with
    | false => exact iff_of_true (grows_refl p text fs) (.inr (.inl rfl))
    | true => simpa [Lossless] using grows_replace_iff

/-- **No call of a run loses what was in a file exactly if every call is lossless**: its append
can open the file, or its fallback cannot, or there is nothing to lose. -/
theorem keeps_along_iff (fs : FileStore) (cs : List FileCall) :
    Meets step Keeps fs cs ↔ Meets step Lossless fs cs := by
  constructor
  · intro h p c t hp ht
    exact (keeps_iff t c).mp (h p c t hp ht)
  · intro h p c t hp ht
    exact (keeps_iff t c).mpr (h p c t hp ht)

/-- Two lines for one log, where the second append fails and the fallback does not. -/
def shortage : List FileCall :=
  [⟨bytes "logs/log", bytes "one\n", true, true⟩, ⟨bytes "logs/log", bytes "two\n", false, true⟩]

/-- The first line is lost. -/
theorem shortage_loses_line :
    (∃ fs, run step (fun _ => none) shortage = some fs ∧
      content fs (bytes "logs/log") = bytes "two\n") ∧
      ¬ Meets step Keeps (fun _ => none) shortage := by
  refine ⟨⟨_, rfl, by decide⟩, fun h => ?_⟩
  have hkeeps := h (shortage.take 1) _ _ (List.prefix_refl _) rfl
  rcases hkeeps.grown with hg | hg
  · exact absurd hg (by decide)
  · exact absurd hg (by decide)

/-- Along a run of lossless calls a file keeps its content and gains texts that were meant for
it. -/
theorem gains_of_lossless {fs fs' : FileStore} {cs : List FileCall}
    (hmeets : Meets step Lossless fs cs) (hrun : run step fs cs = some fs') (p : Bytes) :
    Gains ((cs.filter fun c => decide (c.filePath = p)).map FileCall.text) (content fs p)
      (content fs' p) := by
  have hgrows : ∀ t c u, Lossless t c → step t c = some u → Grows c.filePath c.text t u := by
    intro t c u hc hstep
    obtain rfl := Option.some.inj hstep
    exact (keeps_iff t c).mpr hc
  exact gains_of_run hgrows hmeets hrun p

end FileCall

end SimpleChat
