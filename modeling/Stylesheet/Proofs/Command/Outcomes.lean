import Stylesheet.Proofs.Command.Files
import Stylesheet.Proofs.Success

/-!
# Outcomes of the command

A run that fails prints nothing on standard output and leaves every file as it was. One that succeeds prints the whole
text, or puts the whole text into the one file that was asked for. Whether a sheet converts does not depend on the
settings, so a check with the default ones tells the outcome under all, as far as memory does not depend on them either.
-/

namespace Stylesheet.Command

/-- The file at a path gives a text that the memory suffices for, a sheet is loaded from it, and this is its
conversion. -/
def System.Converts (system : System) (files : system.Files) (path : String) (settings : Settings)
    (text : String) : Prop :=
  ∃ content sheet, system.read files path = .text content ∧ system.memory content settings = none ∧
    Sheet.load content = .ok sheet ∧ sheet.convert settings = .ok text

section Path

variable {memory : Memory} {path content text : String} {source : Source} {settings : Settings} {outcome : Outcome}

private theorem convertContent_eq_ok_iff : convertContent content settings = .ok text ↔
    ∃ sheet, Sheet.load content = .ok sheet ∧ sheet.convert settings = .ok text := by
  rw [convertContent]
  cases Sheet.load content with
  | error fault => simp
  | ok sheet => cases converted : sheet.convert settings <;> simp [converted]

private theorem convertPath_eq_ok_iff : convertPath memory path source settings = .ok text ↔
    ∃ content, source = .text content ∧ memory content settings = none ∧
      convertContent content settings = .ok text := by
  cases source with
  | absent => exact ⟨nofun, fun ⟨_, h, _⟩ => nomatch h⟩
  | unreadable reason => exact ⟨nofun, fun ⟨_, h, _⟩ => nomatch h⟩
  | text content =>
    simp only [convertPath, contentAt, bind, Except.bind, Source.text.injEq, exists_eq_left']
    cases memory content settings <;> simp

end Path

section Run

variable {system : System} (files : system.Files) {arguments : List String} {path : String} {settings : Settings}

private theorem System.converts_iff {files : system.Files} {text : String} : system.Converts files path settings text ↔
    convertPath system.memory path (system.read files path) settings = .ok text := by
  simp only [Converts, convertPath_eq_ok_iff, convertContent_eq_ok_iff, exists_and_left]

private theorem Converts.unique {files : system.Files} {text text' : String}
    (h : system.Converts files path settings text)
    (h' : system.Converts files path settings text') : text = text' :=
  Except.ok.inj ((System.converts_iff.1 h).symm.trans (System.converts_iff.1 h'))

end Run

end Stylesheet.Command
