import TlpiExercises.Getopt
import TlpiExercises.ProcDirs

/-!
# Listing the open files of a process

The program reads the names in the descriptor directory of a process, then the link of each of
them to its row of a table, and prints the rows only after the last link is read. There are 300
rows, which the number of names is not compared with. What happens after an access out of range is
not defined; such a run is told apart from those that stop with a message.
-/
namespace TlpiExercises.ListFileUsage
open CText ProcDirs

/-- Why the links are not all read. -/
inductive Stop where
  | noLink (fd : List UInt8)
  | bufLimit (fd : List UInt8) (r : ℕ)
  deriving DecidableEq

/-- How the program ends, with the lines about the files if it comes to print them. -/
inductive Result where
  | usage
  | ownPid
  | noListing
  | stopped (why : Stop)
  | printed (lines : List (List UInt8))
  deriving DecidableEq

def fdDir (pid : Int32) : List UInt8 := ascii "/proc/" ++ printInt pid.toInt ++ ascii "/fd"

def fdPath (pid : Int32) (fd : List UInt8) : List UInt8 :=
  ascii "/proc/" ++ printInt pid.toInt ++ ascii "/fd/" ++ fd

/-- The loop that reads the links to the rows from row `i` on, and what the second loop prints;
`none` if a path or a row is out of range. -/
def readLinks (pid : Int32) (readlink : List UInt8 → Option (List UInt8)) :
    ℕ → List (Option (List UInt8)) → Option (Except Stop (List (List UInt8)))
  | _, [] => none
  | _, none :: _ => some (.ok [])
  | i, some fd :: fds =>
      -- `fdPath[50]` and `fdInfo[300][500]`
      if (fdPath pid fd).length < 50 ∧ i < 300 then
        match readlink (fdPath pid fd) with
        | none => some (.error (.noLink fd))
        | some target =>
            let r := min target.length 500
            if 200 ≤ r then some (.error (.bufLimit fd r))
            else (readLinks pid readlink (i + 1) fds).map (.map (cString (target.take r) :: ·))
      else none

def readProcFd (self pid : Int32) (opendir : List UInt8 → Listing)
    (readlink : List UInt8 → Option (List UInt8)) : Option Result :=
  if pid = self then some .ownPid
  else
    match readDirContent (opendir (fdDir pid)) with
    | .table fds =>
        (readLinks pid readlink 0 fds).map fun
          | .ok lines => .printed lines
          | .error stop => .stopped stop
    | .undefined => none
    | _ => some .noListing

/-- `"h"`. -/
def optstring : Getopt.Optstring := fun c => if c = 104 then some false else none

/-- `main`, for the arguments after the name of the program; every option prints the help. -/
def main (self : Int32) (opendir : List UInt8 → Listing)
    (readlink : List UInt8 → Option (List UInt8)) : List (List UInt8) → Option Result
  | [] => some .usage
  | arg :: more =>
      if Getopt.getopt optstring (arg :: more) = [] then readProcFd self (atoi arg) opendir readlink
      else some .usage

section Links

variable {pid : Int32} {readlink : List UInt8 → Option (List UInt8)}

end Links

section Runs

variable {self pid : Int32} {opendir : List UInt8 → Listing}
  {readlink : List UInt8 → Option (List UInt8)}

end Runs

end TlpiExercises.ListFileUsage
