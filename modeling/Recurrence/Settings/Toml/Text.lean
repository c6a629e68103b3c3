import Recurrence.Settings.Key

/-!
# Characters and texts of a settings document

What stands between the words of a TOML document (spaces, line ends and remarks
after `#`), and its texts: quoted ones, in which a backslash begins an escape, and
literal ones, in which it does not. A text between three quotes may have several
lines. **A control character stands nowhere but in an escape**; a carriage return
stands only before a line feed.
-/

namespace Recurrence

namespace Toml

/-! ## Between the words -/

/-- Whether a character may not stand in a line. -/
def isControl (c : Char) : Bool :=
  (c.toNat < 0x20 && c != '\t') || c.toNat == 0x7F

/-- The text after the spaces at its beginning. -/
def skip (cs : List Char) : List Char :=
  cs.dropWhile Key.isSpace

/-- The text after the line end at its beginning; the end of the text is one. -/
def lineEnd? (cs : List Char) : Option (List Char) :=
  match cs with
  | [] => some []
  | '\n' :: cs => some cs
  | '\r' :: '\n' :: cs => some cs
  | _ => none

/-- The text after the line whose rest has spaces and a remark only. -/
def restOfLine? (cs : List Char) : Option (List Char) :=
  match skip cs with
  | '#' :: cs => lineEnd? (cs.dropWhile fun c => !isControl c)
  | cs => lineEnd? cs

/-- The text after the spaces, line ends and remarks at its beginning. -/
def skipLines (inRemark : Bool) (cs : List Char) : List Char :=
  match cs with
  | '\n' :: cs => skipLines false cs
  | '\r' :: '\n' :: cs => skipLines false cs
  | c :: cs =>
    if inRemark then if isControl c then c :: cs else skipLines true cs
    else if Key.isSpace c then skipLines false cs
    else if c == '#' then skipLines true cs
    else c :: cs
  | [] => []

/-! ## Characters by their codes -/

/-- The value of a digit in a number to base 16. -/
def hexDigit? (c : Char) : Option Nat :=
  if c.isDigit then some (c.toNat - '0'.toNat)
  else if 'a' ≤ c ∧ c ≤ 'f' then some (c.toNat - 'a'.toNat + 10)
  else if 'A' ≤ c ∧ c ≤ 'F' then some (c.toNat - 'A'.toNat + 10)
  else none

/-- The number that digits write to a base. -/
def number? (base : Nat) (cs : List Char) : Option Nat :=
  if cs.isEmpty then none
  else
    cs.foldl (fun n c => n.bind fun n => (hexDigit? c).bind fun d =>
      if d < base then some (base * n + d) else none) (some 0)

/-- The character with a code that digits write. -/
def coded? (cs : List Char) : Option Char :=
  (number? 16 cs).bind fun n => if n.isValidChar then some (Char.ofNat n) else none

/-- The character for which a character after a backslash stands. -/
def escaped? (c : Char) : Option Char :=
  match c with
  | 'b' => some '\x08'
  | 't' => some '\t'
  | 'n' => some '\n'
  | 'f' => some '\x0c'
  | 'r' => some '\r'
  | 'e' => some '\x1b'
  | '"' => some '"'
  | '\\' => some '\\'
  | _ => none

/-! ## Texts -/

/-- What has been read, with one more character before it. -/
def before (c : Char) (p : List Char × List Char) : List Char × List Char :=
  (c :: p.1, p.2)

/-- Reads a text of one line to its double quote. -/
def quoted? : List Char → Option (List Char × List Char)
  | [] => none
  | '"' :: cs => some ([], cs)
  | '\\' :: 'x' :: a :: b :: cs =>
    (coded? [a, b]).bind fun e => (quoted? cs).map (before e)
  | '\\' :: 'u' :: a :: b :: c :: d :: cs =>
    (coded? [a, b, c, d]).bind fun e => (quoted? cs).map (before e)
  | '\\' :: 'U' :: a :: b :: c :: d :: e :: f :: g :: h :: cs =>
    (coded? [a, b, c, d, e, f, g, h]).bind fun e => (quoted? cs).map (before e)
  | '\\' :: c :: cs => (escaped? c).bind fun e => (quoted? cs).map (before e)
  | c :: cs => if isControl c || c == '\\' then none else (quoted? cs).map (before c)

/-- Reads a text of one line to its single quote. -/
def literal? : List Char → Option (List Char × List Char)
  | [] => none
  | c :: cs =>
    if c == '\'' then some ([], cs)
    else if isControl c then none
    else (literal? cs).map (before c)

/-- Where a reader of a text of several lines is. -/
inductive Margin where
  /-- In the text. -/
  | text
  /-- After a backslash, before the end of its line. -/
  | right
  /-- At the beginning of a line that a backslash has joined to the one before. -/
  | left
deriving DecidableEq

/-- The number of quotes at the beginning of a text. -/
def quotes (quote : Char) (cs : List Char) : Nat :=
  (cs.takeWhile (· == quote)).length

/-- Reads a text of several lines to its three double quotes, before which two
more may stand. **A backslash at the end of a line takes away the line end and
the blanks after it.** -/
def quotedLines? (m : Margin) (cs : List Char) : Option (List Char × List Char) :=
  match m, cs with
  | _, [] => none
  | .right, '\n' :: cs | .right, '\r' :: '\n' :: cs => quotedLines? .left cs
  | .right, c :: cs => if Key.isSpace c then quotedLines? .right cs else none
  | .left, '\r' :: '\n' :: cs => quotedLines? .left cs
  | .text, '\r' :: '\n' :: cs => (quotedLines? .text cs).map fun p => before '\r' (before '\n' p)
  | _, '\\' :: 'x' :: a :: b :: cs =>
    (coded? [a, b]).bind fun e => (quotedLines? .text cs).map (before e)
  | _, '\\' :: 'u' :: a :: b :: c :: d :: cs =>
    (coded? [a, b, c, d]).bind fun e => (quotedLines? .text cs).map (before e)
  | _, '\\' :: 'U' :: a :: b :: c :: d :: e :: f :: g :: h :: cs =>
    (coded? [a, b, c, d, e, f, g, h]).bind fun e => (quotedLines? .text cs).map (before e)
  | _, '\\' :: '\n' :: cs | _, '\\' :: '\r' :: '\n' :: cs => quotedLines? .left cs
  | _, '\\' :: c :: cs =>
    if Key.isSpace c then quotedLines? .right cs
    else (escaped? c).bind fun e => (quotedLines? .text cs).map (before e)
  | m, c :: cs =>
    if m = .left && (Key.isSpace c || c == '\n') then quotedLines? .left cs
    else if c == '"' && quotes '"' cs = 2 then some ([], cs.drop 2)
    else if c == '"' && 4 < quotes '"' cs then none
    else if c == '\\' || (isControl c && c != '\n') then none
    else (quotedLines? .text cs).map (before c)

/-- Reads a text of several lines to its three single quotes, before which two
more may stand. -/
def literalLines? : List Char → Option (List Char × List Char)
  | [] => none
  | '\r' :: '\n' :: cs => (literalLines? cs).map fun p => before '\r' (before '\n' p)
  | c :: cs =>
    if c == '\'' && quotes '\'' cs = 2 then some ([], cs.drop 2)
    else if c == '\'' && 4 < quotes '\'' cs then none
    else if isControl c && c != '\n' then none
    else (literalLines? cs).map (before c)

/-- The lines of a text after a line end that follows its opening quotes. -/
def withoutFirstLineEnd (cs : List Char) : List Char :=
  match cs with
  | '\n' :: cs | '\r' :: '\n' :: cs => cs
  | cs => cs

/-- Reads a text with its quotes. -/
def text? (cs : List Char) : Option (List Char × List Char) :=
  match cs with
  | '"' :: '"' :: '"' :: cs => quotedLines? .text (withoutFirstLineEnd cs)
  | '\'' :: '\'' :: '\'' :: cs => literalLines? (withoutFirstLineEnd cs)
  | '"' :: cs => quoted? cs
  | '\'' :: cs => literal? cs
  | _ => none

/-! ## Ways -/

/-- Reads one name of a way, with or without quotes. -/
def name? (cs : List Char) : Option (List Char × List Char) :=
  match cs with
  | '"' :: cs => quoted? cs
  | '\'' :: cs => literal? cs
  | cs =>
    let name := cs.takeWhile Key.isNameChar
    if name.isEmpty then none else some (name, cs.dropWhile Key.isNameChar)

/-- Reads at most `limit` names with points between them and spaces around
them. -/
def names? (limit : Nat) (cs : List Char) : Option (List String × List Char) :=
  match limit with
  | 0 => none
  | limit + 1 =>
    (name? (skip cs)).bind fun p =>
      match skip p.2 with
      | '.' :: rest => (names? limit rest).map fun q => (String.ofList p.1 :: q.1, q.2)
      | rest => some ([String.ofList p.1], rest)

/-- Reads the names of a way. **No way has more than 80 of them.** -/
def path? (cs : List Char) : Option (List String × List Char) :=
  names? 80 cs

end Toml

end Recurrence
