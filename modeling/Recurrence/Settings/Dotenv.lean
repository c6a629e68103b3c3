import Recurrence.Settings.Environment
import Recurrence.Text.Alphanumeric
import Recurrence.Text.ByteOrder

/-!
# Files of variables

A file of variables has a line `NAME=text` for each of them. The word `export`
may come first, and blank lines and lines that begin with `#` say nothing. A line
goes on in the next one while a quote is open. A text ends at the first blank,
after which only a remark may follow, unless quotes hold it together; the name of
a variable after `$`, or in braces after it, stands for the text of the variable.
**A variable that is set keeps its text, and reading ends at the first line that
is malformed**; what the lines before it say stands.
-/

namespace Recurrence

namespace Dotenv

open Text

/-! ## Lines -/

/-- Where in its line a character stands, as far as it matters for the end of the
line. -/
inductive Place where
  /-- Where a line may end. -/
  | plain
  /-- After a blank. -/
  | blank
  /-- After a backslash. -/
  | escape
  /-- Between quotes. -/
  | quoted (quote : Char)
  /-- After a backslash between quotes. -/
  | quotedEscape (quote : Char)
deriving DecidableEq

/-- The place after a character outside of quotes. -/
def Place.after (c : Char) : Place :=
  if c == '\\' then .escape
  else if c == '"' || c == '\'' then .quoted c
  else .plain

/-- The place after a character; after a blank a `#` begins a remark, which has
none. **The second of two blanks counts as a character like others.** -/
def Place.next? (p : Place) (c : Char) : Option Place :=
  match p with
  | .plain =>
    if isBlank c && c != '\n' && c != '\r' then some .blank else some (.after c)
  | .blank => if c == '#' then none else some (.after c)
  | .escape => some .plain
  | .quoted quote =>
    if c == '\\' then some (.quotedEscape quote)
    else if c == quote then some .plain
    else some (.quoted quote)
  | .quotedEscape quote => some (.quoted quote)

/-- The part of a text before a remark, and the place at its end if there is no
remark. -/
def Place.scan (p : Place) : List Char → List Char × Option Place
  | [] => ([], some p)
  | c :: cs =>
    match p.next? c with
    | none => ([], none)
    | some q => ((c :: (q.scan cs).1), (q.scan cs).2)

/-- The lines of a text, each with the line feed at its end. -/
def lines : List Char → List (List Char)
  | [] => []
  | c :: cs =>
    if c = '\n' then ['\n'] :: lines cs
    else
      match lines cs with
      | [] => [[c]]
      | l :: ls => (c :: l) :: ls

/-- Whether a text is a remark. -/
def isRemark (cs : List Char) : Bool :=
  (cs.dropWhile isBlank).head? == some '#'

/-- Joins lines while quotes are open, to the lines that are joined already, the
latest of them first. A joined line ends before its remark, and one in which
quotes stay open cannot be read. -/
def joined (before : List (List Char)) (p : Place) :
    List (List Char) → List (Option (List Char))
  | [] => if p = .plain then [] else [none]
  | l :: ls =>
    let whole (last : List Char) : List Char := (last :: before).reverse.flatten
    if before.isEmpty && isRemark l then some [] :: joined [] .plain ls
    else
      match p.scan l with
      | (text, none) => some (whole text) :: joined [] .plain ls
      | (_, some .plain) => some (whole l) :: joined [] .plain ls
      | (_, some q) => joined (l :: before) q ls

/-! ## Texts of variables -/

/-- The character for which a character after a backslash stands. -/
def escaped? (c : Char) : Option Char :=
  if c == 'n' then some '\n'
  else if c == '\\' || c == '\'' || c == '"' || c == '$' || c == ' ' then some c
  else none

/-- What the next character of a text belongs to. -/
inductive State where
  /-- The text itself, between double quotes or not. -/
  | text (quoted : Bool)
  /-- A pair that a backslash began. -/
  | escape (quoted : Bool)
  /-- The text between single quotes. -/
  | single
  /-- What follows the text. -/
  | rest
  /-- The name of a variable after `$`, of which some characters have been read, the
  latest first. -/
  | name (quoted : Bool) (read : List Char)
  /-- The name of a variable in braces, read in the same way. -/
  | braces (quoted : Bool) (read : List Char)

/-- Reads a text to its end. **The character after a name without braces is taken
as it stands**, even a quote or a blank. -/
def value? (textOf : List Char → List Char) (s : State) (cs : List Char) : Option (List Char) :=
  match s, cs with
  | .text quoted, [] | .escape quoted, [] => if quoted then none else some []
  | .single, [] | .braces _ _, [] => none
  | .rest, [] => some []
  | .name quoted read, [] => if quoted then none else some (textOf read.reverse)
  | .text quoted, c :: cs =>
    if c == '$' then value? textOf (.name quoted []) cs
    else if c == '\\' then value? textOf (.escape quoted) cs
    else if c == '"' then value? textOf (.text !quoted) cs
    else if !quoted && c == '\'' then value? textOf .single cs
    else if !quoted && (c == ' ' || c == '\t') then value? textOf .rest cs
    else (value? textOf (.text quoted) cs).map (c :: ·)
  | .escape quoted, c :: cs =>
    (escaped? c).bind fun e => (value? textOf (.text quoted) cs).map (e :: ·)
  | .single, c :: cs =>
    if c == '\'' then value? textOf (.text false) cs
    else (value? textOf .single cs).map (c :: ·)
  | .rest, c :: cs =>
    if c == ' ' || c == '\t' then value? textOf .rest cs
    else if c == '#' then some []
    else none
  | .name quoted read, c :: cs =>
    if isAlphanumeric c then value? textOf (.name quoted (c :: read)) cs
    else if c == '{' && read.isEmpty then value? textOf (.braces quoted []) cs
    else if c == '$' then (value? textOf (.name quoted []) cs).map (textOf read.reverse ++ ·)
    else (value? textOf (.text quoted) cs).map (textOf read.reverse ++ c :: ·)
  | .braces quoted read, c :: cs =>
    if c == '}' then (value? textOf (.text quoted) cs).map (textOf read.reverse ++ ·)
    else value? textOf (.braces quoted (c :: read)) cs

/-! ## Assignments -/

/-- Whether a name may begin with a character. -/
def isNameStart (c : Char) : Bool :=
  c.isAlpha || c == '_'

/-- Whether a name may go on with a character. -/
def isNameChar (c : Char) : Bool :=
  c.isAlphanum || c == '_' || c == '.'

/-- Reads a name and skips the blanks after it. -/
def name? (cs : List Char) : Option (List Char × List Char) :=
  match cs with
  | c :: _ =>
    if isNameStart c then
      some (cs.takeWhile isNameChar, (cs.dropWhile isNameChar).dropWhile isBlank)
    else none
  | [] => none

/-- The equals sign and the blanks after it are skipped. -/
def afterEquals? (cs : List Char) : Option (List Char) :=
  match cs with
  | '=' :: cs => some (cs.dropWhile isBlank)
  | _ => none

/-- Reads `NAME=text`, after the blanks before it. The word `export` is a name as
well, if an equals sign follows it. -/
def assignment? (textOf : List Char → List Char) (cs : List Char) : Option (String × String) := do
  let (name, rest) ← name? cs
  let (name, text) ←
    match afterEquals? rest with
    | some text => some (name, text)
    | none =>
      if name = "export".toList then do
        let (name, rest) ← name? rest
        let text ← afterEquals? rest
        some (name, text)
      else none
  let text ← match text with
    | '#' :: _ => some []
    | _ => value? textOf (.text false) text
  some (String.ofList name, String.ofList text)

/-- What a line says: nothing, an assignment, or something malformed. Blanks at
its ends do not count. -/
def line? (textOf : List Char → List Char) (cs : List Char) : Option (Option (String × String)) :=
  match trim cs with
  | [] => some none
  | '#' :: _ => some none
  | cs => (assignment? textOf cs).map some

/-! ## Environments -/

/-- The text that an environment has for a name, which has no characters if it is
not set. The environment is asked for the line `NAME=text` that begins with the
name and an equals sign, so that **a name may reach into the text of a variable.** -/
def textIn (vars : Variables) (name : List Char) : List Char :=
  (vars.findSome? fun v => (name ++ ['=']).isPrefixOf? (v.1.toList ++ '=' :: v.2.toList)).getD []

/-- An environment with a variable that it may have already. **A variable that is
set, even to nothing, keeps its text.** -/
def withVariable (vars : Variables) (v : String × String) : Variables :=
  if (vars.lookup v.1).isSome then vars else vars ++ [v]

/-- The environment after some lines, up to the first that is malformed. -/
def afterLines (vars : Variables) : List (Option (List Char)) → Variables
  | [] | none :: _ => vars
  | some l :: ls =>
    match line? (textIn vars) l with
    | none => vars
    | some none => afterLines vars ls
    | some (some v) => afterLines (withVariable vars v) ls

/-- An environment completed by a file of variables. -/
def complete (vars : Variables) (file : String) : Variables :=
  afterLines vars (joined [] .plain (lines (withoutMark file.toList)))

end Dotenv

end Recurrence
