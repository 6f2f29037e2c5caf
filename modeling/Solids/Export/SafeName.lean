/-!
# Solids.Export.SafeName

**Names for files.** A name that a recipe gives is made safe by writing an underscore
for every run of characters other than ASCII letters, digits, dots, underscores and
hyphens. No separator of folders survives that.
-/

namespace Solids

/-- The name of files for recipes that have no name, or an empty one. -/
def defaultName : String := "model"

namespace SafeName

/-- A character that is kept. -/
def isSafe (c : Char) : Bool := c.isAlphanum || c = '.' || c = '_' || c = '-'

/-- The characters of a name with an underscore for every run of characters that are
not kept. `inRun` says that the character before belonged to such a run. -/
def replaceRuns (inRun : Bool) : List Char → List Char
  | [] => []
  | c :: rest =>
    if isSafe c then c :: replaceRuns false rest
    else if inRun then replaceRuns true rest
    else '_' :: replaceRuns true rest

/-- The safe form of a name, or of the want of one. -/
def ofName : Option String → String
  | none => defaultName
  | some name =>
    if name.isEmpty then defaultName else String.ofList (replaceRuns false name.toList)

theorem all_isSafe_replaceRuns (inRun : Bool) (cs : List Char) :
    (replaceRuns inRun cs).all isSafe = true := by
  induction cs generalizing inRun with
  | nil => rfl
  | cons c rest ih =>
    simp only [replaceRuns]
    split
    · next h => simp [h, ih]
    · split
      · exact ih true
      · simp only [List.all_cons, ih, Bool.and_true]
        decide

end SafeName

end Solids
