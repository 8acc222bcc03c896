import Mathlib.Tactic

/-!
# Short options on a command line

`getopt` goes through the words of a command line. A word that starts with `-` is a cluster of
options; an option that takes an argument takes the rest of its cluster, or the next word whatever
it is. Words that are no options are passed over, and `--` ends the options.
-/
namespace TlpiExercises.Getopt

/-- What one call of `getopt` returns: an option, with its argument if it takes one, or `?` for an
option that is unknown or lacks its argument. -/
inductive Item where
  | flag (c : UInt8)
  | value (c : UInt8) (optarg : List UInt8)
  | unknown (c : UInt8)
  | missing (c : UInt8)
  deriving DecidableEq, Repr

/-- Whether an option takes an argument; `none` for a character that is no option. -/
abbrev Optstring := UInt8 → Option Bool

/-- `'-'`. -/
abbrev dash : UInt8 := 45

/-- The options of a cluster, and the one whose argument is the next word. -/
def cluster (optstring : Optstring) : List UInt8 → List Item × Option UInt8
  | [] => ([], none)
  | c :: cs =>
      match optstring c with
      | none => (.unknown c :: (cluster optstring cs).1, (cluster optstring cs).2)
      | some false => (.flag c :: (cluster optstring cs).1, (cluster optstring cs).2)
      | some true => if cs = [] then ([], some c) else ([.value c cs], none)

/-- The options of a word, if it is a cluster. -/
def optionChars : List UInt8 → Option (List UInt8)
  | c :: c' :: cs => if c = dash then some (c' :: cs) else none
  | _ => none

/-- All calls of `getopt`, for the words after the name of the program. -/
def getopt (optstring : Optstring) : List (List UInt8) → List Item
  | [] => []
  | word :: words =>
      if word = [dash, dash] then []
      else
        match optionChars word with
        | none => getopt optstring words
        | some cs =>
            match cluster optstring cs, words with
            | (items, none), words => items ++ getopt optstring words
            | (items, some c), [] => items ++ [.missing c]
            | (items, some c), optarg :: words => items ++ .value c optarg :: getopt optstring words

/-- The words that are no options, which `getopt` moves to the end of the command line. -/
def operands (optstring : Optstring) : List (List UInt8) → List (List UInt8)
  | [] => []
  | word :: words =>
      if word = [dash, dash] then words
      else
        match optionChars word with
        | none => word :: operands optstring words
        | some cs =>
            match (cluster optstring cs).2, words with
            | none, words => operands optstring words
            | some _, [] => []
            | some _, _ :: words => operands optstring words

variable {optstring : Optstring} {c : UInt8} {words : List (List UInt8)}

theorem getopt_plain {word : List UInt8} (h : optionChars word = none) :
    getopt optstring (word :: words) = getopt optstring words := by
  have hne : word ≠ [dash, dash] := by
    rintro rfl
    cases h
  rw [getopt, if_neg hne, h]

theorem getopt_flag (h : optstring c = some false) (hc : c ≠ dash) :
    getopt optstring ([dash, c] :: words) = .flag c :: getopt optstring words := by
  have hne : [dash, c] ≠ [dash, dash] := by simpa using hc
  rw [getopt, if_neg hne]
  simp [optionChars, cluster, h]

theorem getopt_separate (h : optstring c = some true) (hc : c ≠ dash) (optarg : List UInt8) :
    getopt optstring ([dash, c] :: optarg :: words) = .value c optarg :: getopt optstring words := by
  have hne : [dash, c] ≠ [dash, dash] := by simpa using hc
  rw [getopt, if_neg hne]
  simp [optionChars, cluster, h]

theorem getopt_joined (h : optstring c = some true) {optarg : List UInt8} (harg : optarg ≠ []) :
    getopt optstring ((dash :: c :: optarg) :: words) = .value c optarg :: getopt optstring words := by
  have hne : dash :: c :: optarg ≠ [dash, dash] := by simp [harg]
  rw [getopt, if_neg hne]
  simp [optionChars, cluster, h, harg]

end TlpiExercises.Getopt
