import TlpiExercises.Exits
import TlpiExercises.KeyedList

/-!
# The groups of a user with `myinitgroups`

`initgroups` gives a process the group it is called with and every group that lists the user.
`myinitgroups` collects these in an array, and also the group of the user's entry in the
password file. The group file is what `getgrent` returns from its start on; `malloc` succeeds.
-/
namespace TlpiExercises.InitGroups
open Exits

/-- `NGROUPS_MAX`, the size of the array. -/
abbrev ngroupsMax : ℕ := 65536

/-- `struct passwd`. -/
structure Passwd where
  pwName : List UInt8
  pwGid : UInt32

/-- `struct group`. -/
structure Group where
  grGid : UInt32
  grMem : List (List UInt8)

/-- The ways the function does not get to `setgroups`. -/
inductive Stop where
  | getpwnam
  | overflow
  deriving DecidableEq, Repr

def getpwnam (passwd : List Passwd) (user : List UInt8) : Option Passwd :=
  KeyedList.lookup Passwd.pwName passwd user

/-- `groups[gCnt++] = gid`. -/
def push (groups : List UInt32) (gid : UInt32) : Except Stop (List UInt32) := do
  require (groups.length < ngroupsMax) .overflow
  return groups ++ [gid]

/-- The loop over the members of a group. -/
def isMember (user : List UInt8) : List (List UInt8) → Bool
  | [] => false
  | name :: grMem => if name = user then true else isMember user grMem

/-- The loop over the groups. -/
def getgrentLoop (user : List UInt8) : List Group → List UInt32 → Except Stop (List UInt32)
  | [], groups => return groups
  | grP :: rest, groups => do
      if isMember user grP.grMem then
        let groups ← push groups grP.grGid
        getgrentLoop user rest groups
      else getgrentLoop user rest groups

/-- The list that is passed to `setgroups`. -/
def myinitgroups (passwd : List Passwd) (groupFile : List Group) (user : List UInt8)
    (group : UInt32) : Except Stop (List UInt32) := do
  let groups ← push [] group
  match getpwnam passwd user with
  | none => throw .getpwnam
  | some userInfo =>
      let groups ← push groups userInfo.pwGid
      getgrentLoop user groupFile groups

/-- The groups that list the user, in the order of the group file. -/
def listed (groupFile : List Group) (user : List UInt8) : List UInt32 :=
  (groupFile.filter fun g => user ∈ g.grMem).map Group.grGid

theorem isMember_iff (user : List UInt8) (names : List (List UInt8)) :
    isMember user names ↔ user ∈ names := by
  induction names with
  | nil => simp [isMember]
  | cons name names ih =>
      rw [isMember, List.mem_cons]
      by_cases h : name = user
      · simp [h]
      · simp [h, ih, Ne.symm h]

theorem mem_listed {groupFile : List Group} {user : List UInt8} {gid : UInt32} :
    gid ∈ listed groupFile user ↔ ∃ g ∈ groupFile, user ∈ g.grMem ∧ g.grGid = gid := by
  simp [listed, and_assoc]

theorem push_eq_ok_iff {groups gs : List UInt32} {gid : UInt32} :
    push groups gid = .ok gs ↔ groups.length < ngroupsMax ∧ groups ++ [gid] = gs := by
  unfold push
  simp only [bind_eq_ok_iff, require_eq_ok_iff, pure_eq_ok_iff, decide_eq_true_eq, exists_const]

/-- The loop appends the groups that list the user, as long as the array holds them. -/
theorem getgrentLoop_eq_ok_iff (user : List UInt8) (groupFile : List Group)
    {groups : List UInt32} (h : groups.length ≤ ngroupsMax) (gs : List UInt32) :
    getgrentLoop user groupFile groups = .ok gs ↔
      groups.length + (listed groupFile user).length ≤ ngroupsMax ∧
        groups ++ listed groupFile user = gs := by
  induction groupFile generalizing groups with
  | nil => simp [getgrentLoop, listed, h]
  | cons grP rest ih =>
      rw [getgrentLoop]
      by_cases hmem : user ∈ grP.grMem
      · have hlisted : listed (grP :: rest) user = grP.grGid :: listed rest user := by
          simp [listed, hmem]
        rw [if_pos ((isMember_iff user grP.grMem).mpr hmem), hlisted, List.length_cons]
        simp only [bind_eq_ok_iff, push_eq_ok_iff]
        constructor
        · rintro ⟨groups', ⟨hlt, rfl⟩, hrun⟩
          have hle : (groups ++ [grP.grGid]).length ≤ ngroupsMax := by simpa using hlt
          obtain ⟨hlen, rfl⟩ := (ih hle).mp hrun
          rw [List.length_append, List.length_singleton] at hlen
          exact ⟨by omega, by simp⟩
        · rintro ⟨hlen, rfl⟩
          have hle : (groups ++ [grP.grGid]).length ≤ ngroupsMax := by
            rw [List.length_append, List.length_singleton]
            omega
          refine ⟨_, ⟨by omega, rfl⟩, (ih hle).mpr ⟨?_, by simp⟩⟩
          rw [List.length_append, List.length_singleton]
          omega
      · have hlisted : listed (grP :: rest) user = listed rest user := by
          simp [listed, hmem]
        rw [if_neg (mt (isMember_iff user grP.grMem).mp hmem), hlisted]
        exact ih h

/-- The list has the group, the group of the password entry, and the groups that list the
user. -/
theorem myinitgroups_eq_ok_iff {passwd : List Passwd} {user : List UInt8} {userInfo : Passwd}
    (h : getpwnam passwd user = some userInfo) (groupFile : List Group) (group : UInt32)
    (gs : List UInt32) :
    myinitgroups passwd groupFile user group = .ok gs ↔
      2 + (listed groupFile user).length ≤ ngroupsMax ∧
        group :: userInfo.pwGid :: listed groupFile user = gs := by
  have hpush : ∀ {groups : List UInt32} (gid : UInt32), groups.length < ngroupsMax →
      push groups gid = .ok (groups ++ [gid]) := fun gid hlt => push_eq_ok_iff.mpr ⟨hlt, rfl⟩
  have hrun : myinitgroups passwd groupFile user group =
      getgrentLoop user groupFile [group, userInfo.pwGid] := by
    unfold myinitgroups
    rw [hpush group (by simp), h]
    show (push [group] userInfo.pwGid >>= getgrentLoop user groupFile) = _
    rw [hpush userInfo.pwGid (by simp)]
    rfl
  have hle : [group, userInfo.pwGid].length ≤ ngroupsMax := by
    show 2 ≤ 65536
    omega
  rw [hrun]
  exact getgrentLoop_eq_ok_iff user groupFile hle gs

/-- The list is what `initgroups` passes on, and the array holds it, exactly if the group of the
password entry is the given group or lists the user, and few enough groups list the user. -/
theorem myinitgroups_like_initgroups_iff (passwd : List Passwd) (groupFile : List Group)
    (user : List UInt8) (group : UInt32) (userInfo : Passwd)
    (h : getpwnam passwd user = some userInfo) :
    (∃ gs, myinitgroups passwd groupFile user group = .ok gs ∧
        ∀ gid, gid ∈ gs ↔ gid = group ∨ ∃ g ∈ groupFile, user ∈ g.grMem ∧ g.grGid = gid) ↔
      (userInfo.pwGid = group ∨ ∃ g ∈ groupFile, user ∈ g.grMem ∧ g.grGid = userInfo.pwGid) ∧
        2 + (groupFile.filter fun g => user ∈ g.grMem).length ≤ ngroupsMax := by
  have hlen : (listed groupFile user).length =
      (groupFile.filter fun g => user ∈ g.grMem).length := List.length_map _
  simp only [← mem_listed, ← hlen, myinitgroups_eq_ok_iff h]
  constructor
  · rintro ⟨gs, ⟨hmax, rfl⟩, hmem⟩
    exact ⟨(hmem userInfo.pwGid).mp (by simp), hmax⟩
  · rintro ⟨hgid, hmax⟩
    refine ⟨_, ⟨hmax, rfl⟩, fun gid => ?_⟩
    rw [List.mem_cons, List.mem_cons]
    constructor
    · rintro (rfl | rfl | hlisted)
      · exact .inl rfl
      · exact hgid
      · exact .inr hlisted
    · rintro (rfl | hlisted)
      · exact .inl rfl
      · exact .inr (.inr hlisted)

/-- A user whose own group is the one that is passed on. -/
theorem myinitgroups_like_initgroups_iff_own :
    ∃ gs, myinitgroups [⟨[116], 10⟩] [⟨20, [[116]]⟩] [116] 10 = .ok gs ∧
      ∀ gid, gid ∈ gs ↔ gid = 10 ∨ ∃ g ∈ [(⟨20, [[116]]⟩ : Group)], [116] ∈ g.grMem ∧ g.grGid = gid :=
  (myinitgroups_like_initgroups_iff [⟨[116], 10⟩] [⟨20, [[116]]⟩] [116] 10 ⟨[116], 10⟩ rfl).mpr
    ⟨.inl rfl, by decide⟩

/-- The group 1000 of the password entry is passed on although no group lists the user. -/
theorem password_group_added :
    myinitgroups [⟨[116], 1000⟩] [⟨20, [[117]]⟩] [116] 10 = .ok [10, 1000] ∧
      ¬ ((1000 : UInt32) = 10 ∨
        ∃ g ∈ [(⟨20, [[117]]⟩ : Group)], [116] ∈ g.grMem ∧ g.grGid = 1000) :=
  ⟨rfl, by decide⟩

end TlpiExercises.InitGroups
