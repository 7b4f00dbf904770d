/-!
# Strings and keys of TOML

A string has four written forms: basic and literal, each on one line or over several.  A literal
form holds its characters as they are; a basic form has escapes.  The writer takes the first form,
of basic, literal, multi-line basic and multi-line literal, that needs no escape, and else a basic
form with escapes, over several lines if the string has a line break.

A key is written bare if it can be, and as a string on one line otherwise.
-/

namespace Patchbay.Toml

/-- The quotation marks of basic and of literal strings. -/
def quotationMark : Char := '\x22'

/-- The mark of literal strings. -/
def apostrophe : Char := '\x27'

/-- Characters that no string, key or comment holds as they are; the tab is not among them. -/
def isControl (c : Char) : Bool := (decide (c.toNat < 32) && c != '\t') || c.toNat == 127

/-- The characters of bare keys. -/
def isBare (c : Char) : Bool := c.isAlphanum || c == '_' || c == '-'

/-! ## Writing -/

/-- How a string is written. -/
inductive Form where
  | basic
  | literal
  | multilineBasic
  | multilineLiteral
  deriving DecidableEq, Repr

/-- The length of the longest run of a character; `run` of it are met before. -/
def longestRun (mark : Char) : (run : Nat) → List Char → Nat
  | run, [] => run
  | run, c :: rest =>
    if c = mark then longestRun mark (run + 1) rest else max run (longestRun mark 0 rest)

/-- A character that needs an escape wherever it is, line breaks apart. -/
def needsEscape (c : Char) : Bool := isControl c && c != '\n'

/-- The form in which a string is written as a value. -/
def formOf (s : List Char) : Form :=
  let escape := s.any needsEscape
  let backslash := s.contains '\\'
  let lines := s.contains '\n'
  if !escape && !backslash && !s.contains quotationMark && !lines then .basic
  else if !escape && !s.contains apostrophe && !lines then .literal
  else if !escape && !backslash && longestRun quotationMark 0 s ≤ 2 then .multilineBasic
  else if !escape && longestRun apostrophe 0 s ≤ 2 then .multilineLiteral
  else if lines then .multilineBasic
  else .basic

/-- A hexadecimal digit, in upper case. -/
def upperHexDigit (n : Nat) : Char := (Nat.digitChar (n % 16)).toUpper

/-- A character of a basic string; the quotation mark is treated apart. -/
def escapeChar (c : Char) : List Char :=
  if c = '\x08' then ['\\', 'b']
  else if c = '\t' then ['\\', 't']
  else if c = '\n' then ['\\', 'n']
  else if c = '\x0c' then ['\\', 'f']
  else if c = '\r' then ['\\', 'r']
  else if c = '\\' then ['\\', '\\']
  else if isControl c then
    ['\\', 'u', '0', '0', upperHexDigit (c.toNat / 16), upperHexDigit c.toNat]
  else [c]

/-- The characters of a basic string.  Over several lines, line breaks stay, and so do up to two
quotation marks in a row; `marks` of them have just been written. -/
def escaped (multiline : Bool) : (marks : Nat) → List Char → List Char
  | _, [] => []
  | marks, c :: rest =>
    if c = quotationMark then
      if multiline ∧ marks < 2 then c :: escaped multiline (marks + 1) rest
      else '\\' :: c :: escaped multiline 0 rest
    else if multiline ∧ c = '\n' then c :: escaped multiline 0 rest
    else escapeChar c ++ escaped multiline 0 rest

/-- The line break with which a string of several lines begins; it is not part of the string. -/
def leadingBreak (s : List Char) : List Char := if s.contains '\n' then ['\n'] else []

/-- A string in one of its forms. -/
def writeAs (form : Form) (s : List Char) : List Char :=
  match form with
  | .basic => quotationMark :: escaped false 0 s ++ [quotationMark]
  | .literal => apostrophe :: s ++ [apostrophe]
  | .multilineBasic =>
    List.replicate 3 quotationMark ++ leadingBreak s ++ escaped true 0 s
      ++ List.replicate 3 quotationMark
  | .multilineLiteral =>
    List.replicate 3 apostrophe ++ leadingBreak s ++ s ++ List.replicate 3 apostrophe

/-- A string as a value. -/
def writeString (s : String) : List Char := writeAs (formOf s.toList) s.toList

/-- A string as a key. -/
def writeKey (key : String) : List Char :=
  let s := key.toList
  if !s.isEmpty && s.all isBare then s
  else if !s.any isControl && !s.contains '\\' && !s.contains quotationMark then writeAs .basic s
  else if !s.any isControl && !s.contains apostrophe then writeAs .literal s
  else writeAs .basic s

/-! ## Reading -/

/-- The value of a hexadecimal digit of either case. -/
def hexValue? (c : Char) : Option Nat :=
  if '0' ≤ c ∧ c ≤ '9' then some (c.toNat - '0'.toNat)
  else if 'a' ≤ c ∧ c ≤ 'f' then some (c.toNat - 'a'.toNat + 10)
  else if 'A' ≤ c ∧ c ≤ 'F' then some (c.toNat - 'A'.toNat + 10)
  else none

/-- The character whose code point hexadecimal digits write; surrogates are no characters. -/
def codePoint? (digits : List Char) : Option Char := do
  let n ← digits.foldlM (fun n c => (hexValue? c).map (16 * n + ·)) 0
  if n.isValidChar then some (Char.ofNat n) else none

/-- The character that a letter after a backslash stands for. -/
def unescape? (c : Char) : Option Char :=
  if c = 'b' then some '\x08'
  else if c = 't' then some '\t'
  else if c = 'n' then some '\n'
  else if c = 'f' then some '\x0c'
  else if c = 'r' then some '\r'
  else if c = quotationMark ∨ c = '\\' then some c
  else none

/-- A character put before a string that is read. -/
def before (c : Char) (read : Option (List Char × List Char)) : Option (List Char × List Char) :=
  read.map fun (s, rest) => (c :: s, rest)

/-- A basic string up to its closing mark, and what follows it. -/
def basic? : List Char → Option (List Char × List Char)
  | '\\' :: 'u' :: a :: b :: c :: d :: rest =>
    (codePoint? [a, b, c, d]).bind (before · (basic? rest))
  | '\\' :: 'U' :: a :: b :: c :: d :: e :: f :: g :: h :: rest =>
    (codePoint? [a, b, c, d, e, f, g, h]).bind (before · (basic? rest))
  | '\\' :: c :: rest => (unescape? c).bind (before · (basic? rest))
  | c :: rest =>
    if c = quotationMark then some ([], rest)
    else if isControl c ∨ c = '\\' then none
    else before c (basic? rest)
  | [] => none

/-- A literal string up to its closing mark, and what follows it. -/
def literal? : List Char → Option (List Char × List Char)
  | c :: rest =>
    if c = apostrophe then some ([], rest)
    else if isControl c then none
    else before c (literal? rest)
  | [] => none

/-- The spaces within a line. -/
def isSpace (c : Char) : Bool := c == ' ' || c == '\t'

/-- A line break follows, perhaps after spaces. -/
def breaksLine (s : List Char) : Bool :=
  match s.dropWhile isSpace with
  | '\n' :: _ => true
  | '\r' :: '\n' :: _ => true
  | _ => false

/-- A basic string of several lines up to its closing marks, and what follows them.  A backslash
at the end of a line takes away all blanks up to the next character; `skipping` says that this is
going on. -/
def multilineBasic? : (skipping : Bool) → List Char → Option (List Char × List Char)
  | _, '\x22' :: '\x22' :: '\x22' :: '\x22' :: '\x22' :: rest =>
    some ([quotationMark, quotationMark], rest)
  | _, '\x22' :: '\x22' :: '\x22' :: '\x22' :: rest => some ([quotationMark], rest)
  | _, '\x22' :: '\x22' :: '\x22' :: rest => some ([], rest)
  | skipping, '\r' :: '\n' :: rest =>
    if skipping then multilineBasic? true rest else before '\n' (multilineBasic? false rest)
  | _, '\\' :: 'u' :: a :: b :: c :: d :: rest =>
    (codePoint? [a, b, c, d]).bind (before · (multilineBasic? false rest))
  | _, '\\' :: 'U' :: a :: b :: c :: d :: e :: f :: g :: h :: rest =>
    (codePoint? [a, b, c, d, e, f, g, h]).bind (before · (multilineBasic? false rest))
  | _, '\\' :: c :: rest =>
    if breaksLine (c :: rest) then multilineBasic? true (c :: rest)
    else (unescape? c).bind (before · (multilineBasic? false rest))
  | skipping, c :: rest =>
    if skipping && (isSpace c || c == '\n') then multilineBasic? true rest
    else if c = '\n' then before c (multilineBasic? false rest)
    else if isControl c ∨ c = '\\' then none
    else before c (multilineBasic? false rest)
  | _, [] => none

/-- A literal string of several lines up to its closing marks, and what follows them. -/
def multilineLiteral? : List Char → Option (List Char × List Char)
  | '\x27' :: '\x27' :: '\x27' :: '\x27' :: '\x27' :: rest => some ([apostrophe, apostrophe], rest)
  | '\x27' :: '\x27' :: '\x27' :: '\x27' :: rest => some ([apostrophe], rest)
  | '\x27' :: '\x27' :: '\x27' :: rest => some ([], rest)
  | '\r' :: '\n' :: rest => before '\n' (multilineLiteral? rest)
  | c :: rest =>
    if c ≠ '\n' ∧ isControl c then none else before c (multilineLiteral? rest)
  | [] => none

/-- What follows a line break, if one comes first. -/
def skipBreak : List Char → List Char
  | '\n' :: rest => rest
  | '\r' :: '\n' :: rest => rest
  | s => s

/-- A string in any of its forms, and what follows it. -/
def string? : List Char → Option (List Char × List Char)
  | '\x22' :: '\x22' :: '\x22' :: rest => multilineBasic? false (skipBreak rest)
  | '\x22' :: rest => basic? rest
  | '\x27' :: '\x27' :: '\x27' :: rest => multilineLiteral? (skipBreak rest)
  | '\x27' :: rest => literal? rest
  | _ => none

/-- A key, bare or as a string on one line, and what follows it. -/
def key? : List Char → Option (List Char × List Char)
  | '\x22' :: rest => basic? rest
  | '\x27' :: rest => literal? rest
  | s =>
    match s.takeWhile isBare with
    | [] => none
    | key => some (key, s.dropWhile isBare)

end Patchbay.Toml
