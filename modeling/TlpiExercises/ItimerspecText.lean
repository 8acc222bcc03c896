import TlpiExercises.PtmrSigevSignal

/-!
# Timer arguments in their buffer

`itimerspecFromStr` works on a copy of its argument: `strchr` finds the colon and the slashes, and
a zero is written over each of them, so that `atoi` reads the fields one after the other. The
result is the one of splitting the text, and every argument in the documented form is read as it
was written.
-/
namespace TlpiExercises.PtmrSigevSignal
open CText

/-- `strchr` on the string at position `p`. -/
def strchr (buf : List UInt8) (p : ℕ) (c : UInt8) : Option ℕ :=
  let str := cString (buf.drop p)
  if c ∈ str then some (p + str.idxOf c) else none

/-- `if (ptr != NULL) *ptr = '\0'`. -/
def clear (buf : List UInt8) (ptr : Option ℕ) : List UInt8 :=
  (ptr.map fun i => buf.set i 0).getD buf

def atoiAt (buf : List UInt8) (p : ℕ) : Int32 := atoi (cString (buf.drop p))

/-- The statements for the value and for the interval, at position `p`: the time, and the
buffer. -/
def timespecAt (buf : List UInt8) (p : ℕ) : Timespec × List UInt8 :=
  let sptr := strchr buf p 47
  let buf := clear buf sptr
  (⟨atoiAt buf p, (sptr.map fun i => atoiAt buf (i + 1)).getD 0⟩, buf)

/-- `itimerspecFromStr`, for the bytes at its argument. -/
def itimerspecFromBytes (bytes : List UInt8) : Itimerspec :=
  let dupstr := cString bytes ++ [0]
  let cptr := strchr dupstr 0 58
  let dupstr := clear dupstr cptr
  let (value, dupstr) := timespecAt dupstr 0
  ⟨value, (cptr.map fun i => (timespecAt dupstr (i + 1)).1).getD ⟨0, 0⟩⟩

/-- `sec[/nanosec]`. -/
def timespecText (sec : Int32) (nsec : Option Int32) : List UInt8 :=
  printInt sec.toInt ++ (nsec.map fun n => 47 :: printInt n.toInt).getD []

/-- `sec[/nanosec][:sec[/nanosec]]`. -/
def itimerspecText (sec : Int32) (nsec : Option Int32) (interval : Option (Int32 × Option Int32)) :
    List UInt8 :=
  timespecText sec nsec ++ (interval.map fun t => 58 :: timespecText t.1 t.2).getD []

section Buffer

variable {c : UInt8} {str : List UInt8}

theorem cut_of_notMem (h : c ∉ str) : cut c str = (str, none) := by
  have hall : ∀ x ∈ str, (x ≠ c : Bool) := by
    intro x hx
    simpa using ne_of_mem_of_not_mem hx h
  rw [cut, List.takeWhile_eq_self_iff.mpr hall, List.dropWhile_eq_nil_iff.mpr hall]
  rfl

theorem cut_append {before : List UInt8} (h : c ∉ before) (behind : List UInt8) :
    cut c (before ++ c :: behind) = (before, some behind) := by
  have hall : ∀ x ∈ before, (x ≠ c : Bool) := by
    intro x hx
    simpa using ne_of_mem_of_not_mem hx h
  rw [cut, List.takeWhile_append_of_pos hall, List.dropWhile_append_of_pos hall]
  simp

theorem cString_drop_append {front rest : List UInt8} (h : 0 ∉ str) :
    cString ((front ++ (str ++ 0 :: rest)).drop front.length) = str := by
  rw [List.drop_left, cString_append_zero, cString_eq_self h]

theorem strchr_of_notMem (front : List UInt8) {rest : List UInt8} (h : 0 ∉ str) (hc : c ∉ str) :
    strchr (front ++ (str ++ 0 :: rest)) front.length c = none := by
  simp only [strchr, cString_drop_append h, if_neg hc]

theorem strchr_of_split (front : List UInt8) {before behind rest : List UInt8}
    (h : 0 ∉ before ++ c :: behind) (hc : c ∉ before) :
    strchr (front ++ ((before ++ c :: behind) ++ 0 :: rest)) front.length c =
      some (front.length + before.length) := by
  have hmem : c ∈ before ++ c :: behind := by simp
  simp only [strchr, cString_drop_append h, if_pos hmem]
  rw [List.idxOf_append_of_notMem hc]
  simp

/-- A time in a buffer is read as the text of it, and what stands before and behind it is as
before. -/
theorem timespecAt_eq (front rest : List UInt8) (h : 0 ∉ str) :
    ∃ str', str'.length = str.length ∧
      timespecAt (front ++ (str ++ 0 :: rest)) front.length =
        (timespecFromStr str, front ++ (str' ++ 0 :: rest)) := by
  by_cases hslash : 47 ∈ str
  swap
  · refine ⟨str, rfl, ?_⟩
    simp only [timespecAt, strchr_of_notMem front h hslash, clear, Option.map_none,
      Option.getD_none, atoiAt, cString_drop_append h, timespecFromStr, cut_of_notMem hslash]
  · obtain ⟨before, behind, rfl, hnot⟩ := List.eq_append_cons_of_mem hslash
    have hbefore : 0 ∉ before := fun hmem => h (List.mem_append_left _ hmem)
    have hbehind : 0 ∉ behind := fun hmem =>
      h (List.mem_append_right _ (List.mem_cons_of_mem _ hmem))
    refine ⟨before ++ 0 :: behind, by simp, ?_⟩
    have hset : (front ++ ((before ++ 47 :: behind) ++ 0 :: rest)).set
        (front.length + before.length) 0 = front ++ (before ++ 0 :: (behind ++ 0 :: rest)) := by
      simp
    have hsec : cString ((front ++ (before ++ 0 :: (behind ++ 0 :: rest))).drop front.length) =
        before := cString_drop_append hbefore
    have hnsec : cString ((front ++ (before ++ 0 :: (behind ++ 0 :: rest))).drop
        (front.length + before.length + 1)) = behind := by
      have hlen : front.length + before.length + 1 = (front ++ before ++ [0]).length := by
        simp [Nat.add_assoc]
      have hsplit : front ++ (before ++ 0 :: (behind ++ 0 :: rest)) =
          (front ++ before ++ [0]) ++ (behind ++ 0 :: rest) := by simp
      rw [hlen, hsplit, cString_drop_append hbehind]
    simp only [timespecAt, strchr_of_split front h hnot, clear, Option.map_some,
      Option.getD_some, hset, atoiAt, hsec, hnsec, timespecFromStr, cut_append hnot]
    simp

/-- The zeros in the buffer separate the fields as splitting the text does. -/
theorem itimerspecFromBytes_eq (bytes : List UInt8) :
    itimerspecFromBytes bytes = itimerspecFromStr (cString bytes) := by
  have hzero := zero_notMem_cString bytes
  unfold itimerspecFromBytes itimerspecFromStr
  generalize cString bytes = str at hzero
  by_cases hcolon : 58 ∈ str
  swap
  · have hnone : strchr (str ++ [0]) 0 58 = none := strchr_of_notMem [] hzero hcolon
    obtain ⟨str', -, hvalue⟩ := timespecAt_eq [] [] hzero
    simp only [List.nil_append, List.length_nil] at hvalue
    simp only [hnone, clear, Option.map_none, Option.getD_none, hvalue, cut_of_notMem hcolon]
  · obtain ⟨before, behind, rfl, hnot⟩ := List.eq_append_cons_of_mem hcolon
    have hbefore : 0 ∉ before := fun hmem => hzero (List.mem_append_left _ hmem)
    have hbehind : 0 ∉ behind := fun hmem =>
      hzero (List.mem_append_right _ (List.mem_cons_of_mem _ hmem))
    have hsome : strchr ((before ++ 58 :: behind) ++ [0]) 0 58 = some before.length := by
      have hchr : strchr ([] ++ ((before ++ 58 :: behind) ++ [0])) _ 58 = _ :=
        strchr_of_split [] hzero hnot
      simpa only [List.nil_append, List.length_nil, Nat.zero_add] using hchr
    have hset : ((before ++ 58 :: behind) ++ [0]).set before.length 0 =
        before ++ 0 :: (behind ++ [0]) := by simp
    obtain ⟨before', hlen, hvalue⟩ := timespecAt_eq [] (behind ++ [0]) hbefore
    simp only [List.nil_append, List.length_nil] at hvalue
    obtain ⟨behind', -, hinterval⟩ := timespecAt_eq (before' ++ [0]) [] hbehind
    have hplace : (before' ++ [0]).length = before.length + 1 := by simp [hlen]
    have hsplit : before' ++ 0 :: (behind ++ [0]) = (before' ++ [0]) ++ (behind ++ [0]) := by simp
    rw [hplace] at hinterval
    simp only [hsome, clear, Option.map_some, Option.getD_some, hset, hvalue, hsplit, hinterval,
      cut_append hnot]

end Buffer

section Forms

variable {c : UInt8}

theorem notMem_timespecText (hdigit : isdigit c = false) (hplus : c ≠ 43) (hminus : c ≠ 45)
    (hslash : c ≠ 47) (sec : Int32) (nsec : Option Int32) : c ∉ timespecText sec nsec := by
  have hint : ∀ x : ℤ, c ∉ printInt x := fun x =>
    (isNumeral_printInt x).notMem hdigit hplus hminus
  cases nsec with
  | none => simpa [timespecText] using hint sec.toInt
  | some n => simp [timespecText, hint, hslash]

theorem timespecFromStr_text (sec : Int32) (nsec : Option Int32) :
    timespecFromStr (timespecText sec nsec) = ⟨sec, nsec.getD 0⟩ := by
  have hsec : 47 ∉ printInt sec.toInt :=
    (isNumeral_printInt sec.toInt).notMem (by decide) (by decide) (by decide)
  unfold timespecFromStr timespecText
  cases nsec with
  | none =>
      rw [Option.map_none, Option.getD_none, List.append_nil, cut_of_notMem hsec]
      simp only [atoi_printInt, Option.map_none]
  | some n =>
      rw [Option.map_some, Option.getD_some, cut_append hsec]
      simp only [atoi_printInt, Option.map_some, Option.getD_some]

theorem itimerspecFromStr_text (sec : Int32) (nsec : Option Int32)
    (interval : Option (Int32 × Option Int32)) :
    itimerspecFromStr (itimerspecText sec nsec interval) =
      ⟨⟨sec, nsec.getD 0⟩, (interval.map fun t => ⟨t.1, t.2.getD 0⟩).getD ⟨0, 0⟩⟩ := by
  have hcolon : 58 ∉ timespecText sec nsec :=
    notMem_timespecText (by decide) (by decide) (by decide) (by decide) sec nsec
  unfold itimerspecFromStr itimerspecText
  cases interval with
  | none =>
      rw [Option.map_none, Option.getD_none, List.append_nil, cut_of_notMem hcolon]
      simp only [timespecFromStr_text, Option.map_none]
  | some t =>
      rw [Option.map_some, Option.getD_some, cut_append hcolon]
      simp only [timespecFromStr_text, Option.map_some, Option.getD_some]

theorem zero_notMem_itimerspecText (sec : Int32) (nsec : Option Int32)
    (interval : Option (Int32 × Option Int32)) : 0 ∉ itimerspecText sec nsec interval := by
  have hzero : ∀ sec nsec, (0 : UInt8) ∉ timespecText sec nsec :=
    notMem_timespecText (by decide) (by decide) (by decide) (by decide)
  cases interval with
  | none => simpa [itimerspecText] using hzero sec nsec
  | some t => simp [itimerspecText, hzero]

end Forms

/-- An argument in the documented form is read as it was written, with zero for what is left out;
what stands in memory behind the argument does not matter. -/
theorem itimerspecFromBytes_text (sec : Int32) (nsec : Option Int32)
    (interval : Option (Int32 × Option Int32)) (behind : List UInt8) :
    itimerspecFromBytes (itimerspecText sec nsec interval ++ 0 :: behind) =
      ⟨⟨sec, nsec.getD 0⟩, (interval.map fun t => ⟨t.1, t.2.getD 0⟩).getD ⟨0, 0⟩⟩ := by
  have hzero := zero_notMem_itimerspecText sec nsec interval
  rw [itimerspecFromBytes_eq, cString_append_zero, cString_eq_self hzero, itimerspecFromStr_text]

end TlpiExercises.PtmrSigevSignal
