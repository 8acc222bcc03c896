import TlpiExercises.AtomicAppendLoop
import TlpiExercises.Getopt

/-!
# The command line of `atomic-append`

The options of a command line as `getopt` finds them, and what they mean for the program. The
file is the first word, also if that is an option.
-/
namespace TlpiExercises.AtomicAppend
open CText Getopt

/-- `"an:b:h"`. -/
def optstring : Optstring := fun c =>
  if c = 97 ∨ c = 104 then some false else if c = 110 ∨ c = 98 then some true else none

/-- The case of the `switch`. -/
def optOf : Getopt.Item → Opt
  | .flag c => if c = 97 then .a else if c = 104 then .h else .other
  | .value c optarg => if c = 110 then .n optarg else if c = 98 then .b optarg else .other
  | .unknown _ | .missing _ => .other

/-- `readOpts`, for the words after the name of the program: the file and the options. -/
def readCommandLine (words : List (List UInt8)) : Option (List UInt8 × Args) := do
  let filename ← words.head?
  let args ← readOpts (words.length + 1) ((getopt optstring words).map optOf)
  return (filename, args)

/-- A part of a command line: an option, whose value may stand in the same word, or a word that is
no option. -/
inductive Part where
  | bytes (v : Int64) (joined : Bool)
  | bufferSize (v : Int32) (joined : Bool)
  | append
  | plain (word : List UInt8) (h : optionChars word = none)

namespace Part

/-- An option with its value, in one word or in two. -/
def option (c : UInt8) (value : List UInt8) (joined : Bool) : List (List UInt8) :=
  if joined then [dash :: c :: value] else [[dash, c], value]

def words : Part → List (List UInt8)
  | bytes v joined => option 110 (printInt v.toInt) joined
  | bufferSize v joined => option 98 (printInt v.toInt) joined
  | append => [[dash, 97]]
  | plain word _ => [word]

/-- What a part means. -/
def apply (args : Args) : Part → Args
  | bytes v _ => { args with bytes := v }
  | bufferSize v _ => { args with bufferSize := v }
  | append => { args with append := true }
  | plain _ _ => args

end Part

theorem atol_printInt (v : Int64) : atol (printInt v.toInt) = v := by
  have hscan : scanInt ([] ++ (printInt v.toInt ++ [])) = some (v.toInt, []) :=
    scanInt_numeral (isNumeral_printInt v.toInt) [] (by simp) (by simp)
  rw [List.nil_append, List.append_nil] at hscan
  rw [atol, strtol, hscan, Option.map_some, Option.getD_some,
    clampLong_eq v.le_toInt v.toInt_lt, Int64.ofInt_toInt]

theorem getopt_option {c : UInt8} (h : optstring c = some true) (hc : c ≠ dash) {value : List UInt8}
    (hvalue : value ≠ []) (joined : Bool) (rest : List (List UInt8)) :
    getopt optstring (Part.option c value joined ++ rest) = .value c value :: getopt optstring rest := by
  cases joined with
  | true => exact getopt_joined h hvalue
  | false => exact getopt_separate h hc value

/-- The loop over the options of a part and of what follows it. -/
theorem readOptsLoop_part (part : Part) (rest : List (List UInt8)) (args : Args) :
    readOptsLoop ((getopt optstring (part.words ++ rest)).map optOf) args =
      readOptsLoop ((getopt optstring rest).map optOf) (part.apply args) := by
  cases part with
  | bytes v joined =>
      have hne := (isNumeral_printInt v.toInt).ne_nil
      rw [Part.words, getopt_option rfl (by decide) hne, List.map_cons]
      have hn : optOf (.value 110 (printInt v.toInt)) = .n (printInt v.toInt) := rfl
      rw [hn, readOptsLoop, atol_printInt, Part.apply]
  | bufferSize v joined =>
      have hne := (isNumeral_printInt v.toInt).ne_nil
      rw [Part.words, getopt_option rfl (by decide) hne, List.map_cons]
      have hb : optOf (.value 98 (printInt v.toInt)) = .b (printInt v.toInt) := rfl
      rw [hb, readOptsLoop, atoi_printInt, Part.apply]
  | append =>
      rw [Part.words, List.singleton_append, getopt_flag rfl (by decide), List.map_cons]
      rfl
  | plain word h =>
      rw [Part.words, List.singleton_append, getopt_plain h]
      rfl

theorem readOptsLoop_parts (parts : List Part) (args : Args) :
    readOptsLoop ((getopt optstring (parts.flatMap Part.words)).map optOf) args =
      some (parts.foldl Part.apply args) := by
  induction parts generalizing args with
  | nil => rfl
  | cons part parts ih => rw [List.flatMap_cons, readOptsLoop_part, ih, List.foldl_cons]

/-- The parts of a command line may stand in any order and with their values in the same word or
in the next one; a later option overrides an earlier one. The file is the first word, whatever part
that belongs to. -/
theorem readCommandLine_parts {parts : List Part} {first : List UInt8} {more : List (List UInt8)}
    (h : parts.flatMap Part.words = first :: more) :
    readCommandLine (first :: more) = some (first, parts.foldl Part.apply ⟨false, 10, 1⟩) := by
  have hopts : readOpts ((first :: more).length + 1) ((getopt optstring (first :: more)).map optOf) =
      some (parts.foldl Part.apply ⟨false, 10, 1⟩) := by
    have hargc : ¬ (first :: more).length + 1 < 2 := by simp
    rw [readOpts, if_neg hargc, ← h]
    exact readOptsLoop_parts parts _
  simp only [readCommandLine, List.head?_cons, hopts, Option.bind_eq_bind, Option.bind_some]
  rfl

/-- `-n 5 f`, in the order of the help text: the file is `-n`. -/
theorem readCommandLine_parts_usage :
    readCommandLine [[45, 110], [53], [102]] = some ([45, 110], ⟨false, 5, 1⟩) :=
  readCommandLine_parts (show [Part.bytes 5 false, Part.plain [102] rfl].flatMap Part.words = _ from
    by decide)

end TlpiExercises.AtomicAppend
