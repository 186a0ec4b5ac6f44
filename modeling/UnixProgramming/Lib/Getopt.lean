import Mathlib.Data.List.Basic

namespace UnixProgramming.Lib

/-- What a call of `getopt_long` finds: the code of an option, an option that is wrong, or a
long name that no entry of the table has as it stands. -/
inductive Opt
  | code (c : Char)
  | invalid
  | unlisted
deriving DecidableEq

section
variable (optstring : List Char) (longopts : List (List Char × Char))

def shortOpt (c : Char) : Opt := if c ∈ optstring then .code c else .invalid

/-- The option of a word, which stands here behind its two dashes. No option of the table takes
an argument. -/
def longOpt (word : List Char) : Opt :=
  match longopts.find? fun o => o.1 == word.takeWhile (· ≠ '=') with
  | some o => if '=' ∈ word then .invalid else .code o.2
  | none => .unlisted

/-- The options of a word; `none` is an operand. -/
def wordOpts : List Char → Option (List Opt)
  | '-' :: '-' :: word => some [longOpt longopts word]
  | '-' :: c :: cs => some ((c :: cs).map (shortOpt optstring))
  | _ => none

/-- `getopt_long` until it returns -1: what the calls find and the words behind `optind`, as
`argv` has been permuted. With `posix` the first operand ends the options. -/
def getoptLong (posix : Bool) : List (List Char) → List Opt × List (List Char)
  | [] => ([], [])
  | word :: rest =>
    if word = ['-', '-'] then ([], rest)
    else match wordOpts optstring longopts word with
      | some opts => (opts ++ (getoptLong posix rest).1, (getoptLong posix rest).2)
      | none =>
        if posix then ([], word :: rest)
        else ((getoptLong posix rest).1, word :: (getoptLong posix rest).2)

end

section
variable {optstring : List Char} {longopts : List (List Char × Char)}

/-- Up to the word that ends them, options and operands may be mixed. -/
theorem getoptLong_mixed {words : List (List Char)} (ended : ['-', '-'] ∉ words) :
    getoptLong optstring longopts false words =
      (words.flatMap fun word => (wordOpts optstring longopts word).getD [],
        words.filter fun word => (wordOpts optstring longopts word).isNone) := by
  induction words with
  | nil => rfl
  | cons word words ih =>
    have hword : word ≠ ['-', '-'] := fun he => ended (he ▸ List.mem_cons_self)
    have hrest : ['-', '-'] ∉ words := fun hm => ended (List.mem_cons_of_mem word hm)
    rw [getoptLong, if_neg hword, ih hrest]
    cases hopts : wordOpts optstring longopts word with
    | none => simp [hopts]
    | some opts => simp [hopts]

end

end UnixProgramming.Lib
