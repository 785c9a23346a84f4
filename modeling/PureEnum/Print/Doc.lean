/-! Documents: text with lines and levels of indentation, before it is known where the document
will stand. A level is four spaces. A margin writes the indentation of the level it stands at, so
the same document can be set at any level. -/
namespace PureEnum

inductive Doc where
  | text (s : String)
  | margin
  | deeper (d : Doc)
  | append (a b : Doc)

namespace Doc

instance : Append Doc := ⟨append⟩

instance : Coe String Doc := ⟨text⟩

def empty : Doc := text ""

/-- A line end, and the margin of the next line. -/
def line : Doc := text "\n" ++ margin

def concat (ds : List Doc) : Doc := ds.foldr append empty

def commaSeparated : List Doc → Doc
  | [] => empty
  | d :: ds => d ++ concat (ds.map (text ", " ++ ·))

def after (word : String) : Option Doc → Doc
  | some d => text word ++ d
  | none => empty

def indentation : Nat → String
  | 0 => ""
  | level + 1 => indentation level ++ "    "

/-- Sets a document at a level, behind what is already written. -/
def writeAt (level : Nat) : Doc → String → String
  | text s, out => out ++ s
  | margin, out => out ++ indentation level
  | deeper d, out => d.writeAt (level + 1) out
  | append a b, out => b.writeAt level (a.writeAt level out)

def toString (d : Doc) : String := d.writeAt 0 ""

/-- What is already written is never looked at. -/
theorem writeAt_eq (d : Doc) (level : Nat) (out : String) :
    d.writeAt level out = out ++ d.writeAt level "" := by
  induction d generalizing level out with
  | text s => simp [writeAt]
  | margin => simp [writeAt]
  | deeper d ih => simpa [writeAt] using ih (level + 1) out
  | append a b iha ihb =>
    rw [writeAt, writeAt, ihb, iha, ihb level (a.writeAt level ""), String.append_assoc]

theorem writeAt_append (a b : Doc) (level : Nat) :
    (a ++ b).writeAt level "" = a.writeAt level "" ++ b.writeAt level "" :=
  writeAt_eq b level _

end Doc
end PureEnum
