import RotoCompiler.Lib.Pieces

/-!
# Views of strings (value/string.rs)

A string indexed by characters and by lines. The outer `none` of a result is a panic: an
index into a string with an offset that is not on a boundary.
-/

namespace Roto.Value
open Lib
open String (utf8Len)

/-! ### Characters -/

namespace StringChars

/-- `char_indices`, without the characters. -/
def charIndices : ℕ → Text → List ℕ
  | _, [] => []
  | off, c :: s => off :: charIndices (off + c.utf8Size) s

def len (s : Text) : ℕ := s.length

def get (s : Text) (idx : ℕ) : Option Char := s[idx]?

/-- `nth` takes the elements up to the one it returns off the iterator. -/
def nth (iter : List ℕ) (n : ℕ) : Option (ℕ × List ℕ) := iter[n]?.map fun x => (x, iter.drop (n + 1))

def slice (s : Text) (i j : ℕ) : Option (Option Text) :=
  if j < i then some none
  else
    let len := j - i
    let indices := charIndices 0 s ++ [utf8Len s]
    match nth indices i with
    | none => some none
    | some (byteI, indices) =>
      if len = 0 then some (some [])
      else match nth indices (len - 1) with
        | none => some none
        | some (byteJ, _) => (Text.slice s byteI byteJ).map some

def list (s : Text) : List Char := s.foldl (fun l c => l ++ [c]) []

end StringChars

/-! ### Lines -/

namespace StringLines

/-- `split_inclusive('\n')`: what comes before the first newline, with what was read of it. -/
def splitInclusive (line : Text) : Text → List Text
  | [] => if line = [] then [] else [line]
  | c :: s => if c = '\n' then (line ++ [c]) :: splitInclusive [] s else splitInclusive (line ++ [c]) s

/-- The end of a line is a newline, with a carriage return before it or without one. -/
def stripNewline (line : Text) : Text :=
  if line.getLast? = some '\n' then
    let line := line.dropLast
    if line.getLast? = some '\r' then line.dropLast else line
  else line

/-- `str::lines`. -/
def lines (s : Text) : List Text := (splitInclusive [] s).map stripNewline

def len (s : Text) : ℕ := (lines s).length

/-- The character at a byte offset. -/
def get (s : Text) (idx : ℕ) : Option Char := (Text.splitAt s idx).bind fun t => t.2.head?

/-- The offsets after the newlines, which `match_indices` gives. -/
def afterNewlines : ℕ → Text → List ℕ
  | _, [] => []
  | off, c :: s =>
    if c = '\n' then (off + c.utf8Size) :: afterNewlines (off + c.utf8Size) s
    else afterNewlines (off + c.utf8Size) s

/-- The loops over an iterator of offsets, with the last offset and the rest of the iterator;
there is nothing if the iterator ends before. -/
def advance (idx : ℕ) : ℕ → List ℕ → Option (ℕ × List ℕ)
  | 0, iter => some (idx, iter)
  | _ + 1, [] => none
  | n + 1, idx :: iter => advance idx n iter

def slice (s : Text) (i j : ℕ) : Option (Option Text) :=
  if j < i then some none
  else
    let num := j - i
    let stop := if s.getLast? = some '\n' then [] else [utf8Len s]
    match advance 0 i (afterNewlines 0 s) with
    | none => some none
    | some (startIdx, iter) =>
      if num = 0 then some (some [])
      else match advance startIdx num (iter ++ stop) with
        | none => some none
        | some (endIdx, _) => (Text.slice s startIdx endIdx).map some

def list (s : Text) : List Text := lines s

end StringLines

end Roto.Value
