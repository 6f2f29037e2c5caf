/-!
# Solids.Recipe.Path

**Places inside a document**, such as `$.root.children[1].radius`.

A path is the place of a parent and the step from there to one of its parts, so
that going one step down is a constructor.
-/

namespace Solids

/-- A place inside a document. -/
inductive Path where
  /-- The document itself. -/
  | document
  /-- The value under a key of an object. -/
  | key (parent : Path) (name : String)
  /-- An item of an array. -/
  | index (parent : Path) (position : Nat)
  deriving DecidableEq, Repr

namespace Path

/-- The place of the root node of a recipe. -/
def root : Path := .key .document "root"

/-- The number of steps below the document. -/
def length : Path → Nat
  | .document => 0
  | .key parent _ => parent.length + 1
  | .index parent _ => parent.length + 1

/-- The path as a text: a dollar sign for the document, then each key after a
point and each position in brackets. -/
def text : Path → String
  | .document => "$"
  | .key parent name => parent.text ++ "." ++ name
  | .index parent position => parent.text ++ "[" ++ toString position ++ "]"

@[simp] theorem length_key (p : Path) (name : String) : (p.key name).length = p.length + 1 := rfl

@[simp] theorem length_index (p : Path) (position : Nat) :
    (p.index position).length = p.length + 1 := rfl

end Path

end Solids
