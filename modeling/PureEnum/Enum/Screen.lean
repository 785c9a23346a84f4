import PureEnum.Text.Blank
import PureEnum.Text.Word

/-! A screen over program text: whether it may hold an enum at all, before it is parsed. Three
patterns are searched for: a declaration and a wrapper call, a declaration and its first member,
and an annotation. The first two count only where both names agree. Each pattern matches in one
way at most from any place on; after a find the search goes on behind it. -/
namespace PureEnum.Screen

open Text

def expect (literal s : List Char) : Option (List Char) := literal.isPrefixOf? s

def blanks? : List Char → Option (List Char)
  | [] => none
  | c :: rest => if isBlank c then some (trimStart rest) else none

/-- A maximal run of some class of characters, which is not empty, and the text behind it. -/
def run? (p : Char → Bool) (s : List Char) : Option (List Char × List Char) :=
  if (s.takeWhile p).isEmpty then none else some (s.takeWhile p, s.dropWhile p)

def keyword? (s : List Char) : Option (List Char) := do
  blanks? (← expect "var".toList s <|> expect "let".toList s <|> expect "const".toList s)

/-- The text behind one pure mark with the blanks in front of it and inside. -/
def pureMark? (s : List Char) : Option (List Char) := do
  let s := trimStart (← expect "/*".toList (trimStart s))
  let s ← expect "@__PURE__".toList s <|> expect "#__PURE__".toList s
  expect "*/".toList (trimStart s)

def skipMarks (s : List Char) : List Char :=
  match pureMark? s with
  | some rest => if rest.length < s.length then skipMarks rest else s
  | none => s
termination_by s.length

/-- The text behind one or more opening parentheses and the blanks among and behind them. -/
def opened? (s : List Char) : Option (List Char) := do
  return (← expect ['('] s).dropWhile fun c => c == '(' || isBlank c

structure Find where
  declared : List Char
  used : List Char
  rest : List Char

/-- Finds `var X; (function (X) {`, with pure marks before the call or not. -/
def wrapper? (s : List Char) : Option Find := do
  let (declared, s) ← run? isNameChar (← keyword? s)
  let s ← expect [';'] (trimStart s)
  let s ← opened? (trimStart (skipMarks s))
  let s ← expect "function".toList s
  let s ← expect ['('] (trimStart s)
  let (used, s) ← run? isNameChar (trimStart s)
  let s ← expect [')'] (trimStart s)
  return ⟨declared, used, ← expect ['\x7b'] (trimStart s)⟩

def isPlain (c : Char) : Bool := c != '\x7b' && c != '\x7d' && c != ';'

/-- Finds `var X = { … }; X.` or `var X = { … }; X[`. -/
def flat? (s : List Char) : Option Find := do
  let (declared, s) ← run? isNameChar (← keyword? s)
  let s ← expect ['='] (trimStart s)
  let s ← expect ['\x7b'] (trimStart s)
  let s ← expect ['\x7d'] (s.dropWhile isPlain)
  let s ← expect [';'] (trimStart s)
  let (used, s) ← run? isNameChar (trimStart s)
  let s := trimStart s
  return ⟨declared, used, ← expect ['.'] s <|> expect ['['] s⟩

/-- The text behind `/** @enum {type} */`. -/
def annotation? (s : List Char) : Option (List Char) := do
  let s ← expect "/**".toList s
  let s ← expect "@enum".toList (trimStart s)
  let s ← expect ['\x7b'] (trimStart s)
  let (_, s) ← run? isWord s
  let s ← expect ['\x7d'] s
  expect "*/".toList (trimStart s)

def atBoundary (before : Option Char) : Bool := !before.any isWord

/-- Whether any find of a pattern has two equal names. The first `skip` characters belong to an
earlier find, and a find starts where a word may. -/
def findsEqual (pattern : List Char → Option Find) :
    (skip : Nat) → (before : Option Char) → List Char → Bool
  | _, _, [] => false
  | skip + 1, _, c :: s => findsEqual pattern skip (some c) s
  | 0, before, c :: s =>
    match (pattern (c :: s)).filter fun _ => atBoundary before with
    | some f => f.declared == f.used || findsEqual pattern (s.length - f.rest.length) (some c) s
    | none => findsEqual pattern 0 (some c) s

def anywhere (p : List Char → Bool) : List Char → Bool
  | [] => p []
  | c :: s => p (c :: s) || anywhere p s

def mentions (literal : List Char) : List Char → Bool := anywhere fun s => literal.isPrefixOf s

def mentionsKeyword (s : List Char) : Bool :=
  mentions "var".toList s || mentions "let".toList s || mentions "const".toList s

/-- Whether a text may hold an enum. Never a no where an emitted enum stands; a yes may be wrong.
A text without the words that a pattern needs is not searched for it. -/
def mayHoldEnum (s : List Char) : Bool :=
  (mentionsKeyword s && (findsEqual wrapper? 0 none s || findsEqual flat? 0 none s)) ||
    (mentions "@enum".toList s && anywhere (fun s => (annotation? s).isSome) s)

def accepts (text : String) : Bool := mayHoldEnum text.toList

end PureEnum.Screen
