import Mathlib.Data.List.DropRight

namespace UnixProgramming.Lib

/-- `%-*s`. -/
def padRight (width : Nat) (s : List Char) : List Char :=
  s ++ List.replicate (width - s.length) ' '

/-- Cells beside each other, each filled up to its width, and a last one behind them. -/
def columns : List (Nat × List Char) → List Char → List Char
  | [], last => last
  | (width, cell) :: rest, last => padRight width cell ++ columns rest last

/-- A line taken apart again. -/
def cut : List Nat → List Char → List (List Char)
  | [], s => [s]
  | width :: rest, s => (s.take width).rdropWhile (· = ' ') :: cut rest (s.drop width)

/-- The text does not reach into the next column, and no blank of its own is at its end. -/
def Cell (width : Nat) (s : List Char) : Prop := s.length ≤ width ∧ ' ' ∉ s.getLast?

def lines : List Char → List (List Char)
  | [] => [[]]
  | c :: s =>
    if c = '\n' then [] :: lines s
    else match lines s with
      | [] => [[c]]
      | line :: rest => (c :: line) :: rest

section
variable {s : List Char} {width : Nat}

end

end UnixProgramming.Lib
