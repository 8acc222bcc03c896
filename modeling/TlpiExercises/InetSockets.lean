import Mathlib.Tactic

/-!
# Sockets for the addresses of a host or a service

`inetConnect`, `inetListen` and `inetBind` go through the addresses that `getaddrinfo` returns until
a socket can be connected or bound to one of them, and close the sockets for which this fails. A
caller gets one new descriptor or none. There is one way in which a socket stays open that no
descriptor is returned for: `inetPassiveSocket` does not close it when `listen` fails.
-/
namespace TlpiExercises.InetSockets

/-- The address a socket is connected or bound to, whether `SO_REUSEADDR` is set and whether it
listens. -/
structure Sock (α : Type*) where
  addr : Option α
  reuseAddr : Bool
  listening : Bool
  deriving DecidableEq, Repr

/-- The sockets of a process and the limit for its descriptors. -/
structure Process (α : Type*) where
  fds : ℕ → Option (Sock α)
  limit : ℕ

/-- An element of the list of `getaddrinfo`, and whether the calls for it succeed. The call that
attaches the socket to the address is `connect` or `bind`. -/
structure AddrInfo (α : Type*) where
  addr : α
  addrlen : ℕ
  socket : Bool
  setsockopt : Bool
  attach : Bool
  listen : Bool
  deriving DecidableEq, Repr

variable {α : Type*}

/-- The kernel takes the lowest descriptor that is free. -/
def Process.lowestFree (p : Process α) : Option ℕ :=
  (List.range p.limit).find? fun fd => (p.fds fd).isNone

def Process.set (p : Process α) (fd : ℕ) (sock : Option (Sock α)) : Process α :=
  { p with fds := Function.update p.fds fd sock }

def socket (rp : AddrInfo α) (p : Process α) : Option (ℕ × Process α) :=
  if rp.socket then p.lowestFree.map fun fd => (fd, p.set fd (some ⟨none, false, false⟩)) else none

def close (sfd : ℕ) (p : Process α) : Process α := p.set sfd none

/-- The loop of `inetConnect`. -/
def connectLoop : List (AddrInfo α) → Process α → Option ℕ × Process α
  | [], p => (none, p)
  | rp :: rest, p =>
      match socket rp p with
      | none => connectLoop rest p
      | some (sfd, p) =>
          if rp.attach then (some sfd, p.set sfd (some ⟨some rp.addr, false, false⟩))
          else connectLoop rest (close sfd p)

/-- `none` for the list stands for an error of `getaddrinfo`, and for the result for -1. -/
def inetConnect (result : Option (List (AddrInfo α))) (p : Process α) : Option ℕ × Process α :=
  match result with
  | none => (none, p)
  | some addrs => connectLoop addrs p

/-- How the loop of `inetPassiveSocket` ends. -/
inductive Search (α : Type*) where
  | bound (sfd : ℕ) (rp : AddrInfo α)
  | exhausted
  | failed

def bindLoop (doListen : Bool) : List (AddrInfo α) → Process α → Search α × Process α
  | [], p => (.exhausted, p)
  | rp :: rest, p =>
      match socket rp p with
      | none => bindLoop doListen rest p
      | some (sfd, p) =>
          if doListen && !rp.setsockopt then (.failed, close sfd p)
          else if rp.attach then (.bound sfd rp, p.set sfd (some ⟨some rp.addr, doListen, false⟩))
          else bindLoop doListen rest (close sfd p)

/-- The descriptor and the length of its address. -/
def inetPassiveSocket (doListen : Bool) (result : Option (List (AddrInfo α))) (p : Process α) :
    Option (ℕ × ℕ) × Process α :=
  match result with
  | none => (none, p)
  | some addrs =>
      match bindLoop doListen addrs p with
      | (.bound sfd rp, p) =>
          if doListen then
            if rp.listen then (some (sfd, rp.addrlen), p.set sfd (some ⟨some rp.addr, true, true⟩))
            else (none, p)
          else (some (sfd, rp.addrlen), p)
      | (_, p) => (none, p)

def inetListen : Option (List (AddrInfo α)) → Process α → Option (ℕ × ℕ) × Process α :=
  inetPassiveSocket true

def inetBind : Option (List (AddrInfo α)) → Process α → Option (ℕ × ℕ) × Process α :=
  inetPassiveSocket false

/-- The address is not passed over. -/
def AddrInfo.taken (doListen : Bool) (rp : AddrInfo α) : Bool :=
  rp.socket && (rp.attach || doListen && !rp.setsockopt)

/-- The first address that is not passed over. -/
def firstTaken (doListen : Bool) (result : Option (List (AddrInfo α))) : Option (AddrInfo α) :=
  result.bind fun addrs => addrs.find? (AddrInfo.taken doListen)

section Loops

variable {p : Process α} {fd : ℕ} {sock sock' : Option (Sock α)}

@[simp] theorem set_set : (p.set fd sock).set fd sock' = p.set fd sock' := by
  simp [Process.set]

theorem fds_lowestFree (h : p.lowestFree = some fd) : p.fds fd = none := by
  simpa using List.find?_some h

/-- Closing a new socket leads back to the sockets before it. -/
theorem close_set (h : p.lowestFree = some fd) : close fd (p.set fd sock) = p := by
  have hnone : Function.update p.fds fd none = p.fds := by
    rw [← fds_lowestFree h, Function.update_eq_self]
  rw [close, set_set, Process.set, hnone]

theorem set_some_ne (h : p.lowestFree = some fd) (sock : Sock α) : p.set fd (some sock) ≠ p := by
  intro heq
  have hfds : Function.update p.fds fd (some sock) fd = p.fds fd :=
    congrFun (congrArg Process.fds heq) fd
  rw [Function.update_self, fds_lowestFree h] at hfds
  contradiction

theorem socket_of_full (h : p.lowestFree = none) (rp : AddrInfo α) : socket rp p = none := by
  simp [socket, h]

theorem connectLoop_of_full (h : p.lowestFree = none) (addrs : List (AddrInfo α)) :
    connectLoop addrs p = (none, p) := by
  induction addrs with
  | nil => rfl
  | cons rp rest ih => rw [connectLoop, socket_of_full h, ih]

theorem bindLoop_of_full (doListen : Bool) (h : p.lowestFree = none) (addrs : List (AddrInfo α)) :
    bindLoop doListen addrs p = (.exhausted, p) := by
  induction addrs with
  | nil => rfl
  | cons rp rest ih => rw [bindLoop, socket_of_full h, ih]

/-- With a free descriptor, the loop takes the first address it can connect to. -/
theorem connectLoop_eq (h : p.lowestFree = some fd) (addrs : List (AddrInfo α)) :
    connectLoop addrs p = match addrs.find? (AddrInfo.taken false) with
      | none => (none, p)
      | some rp => (some fd, p.set fd (some ⟨some rp.addr, false, false⟩)) := by
  induction addrs with
  | nil => rfl
  | cons rp rest ih =>
      rw [connectLoop, socket, List.find?_cons, AddrInfo.taken]
      cases rp.socket with
      | false => simpa using ih
      | true =>
          cases rp.attach with
          | false => simpa [h, close_set h] using ih
          | true => simp [h]

/-- With a free descriptor, the loop takes the first address it can bind to, unless an option cannot
be set before. -/
theorem bindLoop_eq (doListen : Bool) (h : p.lowestFree = some fd) (addrs : List (AddrInfo α)) :
    bindLoop doListen addrs p = match addrs.find? (AddrInfo.taken doListen) with
      | none => (.exhausted, p)
      | some rp =>
          if doListen && !rp.setsockopt then (.failed, p)
          else (.bound fd rp, p.set fd (some ⟨some rp.addr, doListen, false⟩)) := by
  induction addrs with
  | nil => rfl
  | cons rp rest ih =>
      rw [bindLoop, socket, List.find?_cons, AddrInfo.taken]
      cases rp.socket with
      | false => simpa using ih
      | true =>
          cases hstop : doListen && !rp.setsockopt with
          | true => simp [h, hstop, close_set h]
          | false =>
              cases rp.attach with
              | false => simpa [h, close_set h] using ih
              | true => simp [h, hstop]

theorem inetConnect_eq (result : Option (List (AddrInfo α))) (p : Process α) :
    inetConnect result p = match p.lowestFree, firstTaken false result with
      | some fd, some rp => (some fd, p.set fd (some ⟨some rp.addr, false, false⟩))
      | _, _ => (none, p) := by
  cases result with
  | none => cases p.lowestFree <;> rfl
  | some addrs =>
      cases hfree : p.lowestFree with
      | none => exact connectLoop_of_full hfree addrs
      | some fd =>
          rw [inetConnect, connectLoop_eq hfree, firstTaken, Option.bind_some]
          cases addrs.find? (AddrInfo.taken false) <;> rfl

theorem inetPassiveSocket_eq (doListen : Bool) (result : Option (List (AddrInfo α)))
    (p : Process α) :
    inetPassiveSocket doListen result p = match p.lowestFree, firstTaken doListen result with
      | some fd, some rp =>
          if doListen && !rp.setsockopt then (none, p)
          else if doListen && !rp.listen then
            (none, p.set fd (some ⟨some rp.addr, doListen, false⟩))
          else (some (fd, rp.addrlen), p.set fd (some ⟨some rp.addr, doListen, doListen⟩))
      | _, _ => (none, p) := by
  cases result with
  | none => cases p.lowestFree <;> rfl
  | some addrs =>
      cases hfree : p.lowestFree with
      | none => simp only [inetPassiveSocket, bindLoop_of_full doListen hfree]
      | some fd =>
          simp only [inetPassiveSocket, bindLoop_eq doListen hfree, firstTaken, Option.bind_some]
          cases addrs.find? (AddrInfo.taken doListen) with
          | none => rfl
          | some rp =>
              cases doListen with
              | false => rfl
              | true =>
                  cases hset : rp.setsockopt <;> cases hlisten : rp.listen <;> simp [hset, hlisten]

theorem inetConnect_eq_some_iff {result : Option (List (AddrInfo α))} {p' : Process α} :
    inetConnect result p = (some fd, p') ↔ ∃ rp, firstTaken false result = some rp ∧
      p.lowestFree = some fd ∧ p' = p.set fd (some ⟨some rp.addr, false, false⟩) := by
  rw [inetConnect_eq]
  cases hfree : p.lowestFree with
  | none => simp
  | some fd' =>
      cases firstTaken false result with
      | none => simp
      | some rp =>
          simp only [Prod.mk.injEq, Option.some.injEq, exists_eq_left']
          constructor
          · rintro ⟨rfl, rfl⟩
            exact ⟨rfl, rfl⟩
          · rintro ⟨rfl, rfl⟩
            exact ⟨rfl, rfl⟩

theorem inetConnect_of_none {result : Option (List (AddrInfo α))}
    (h : (inetConnect result p).1 = none) : (inetConnect result p).2 = p := by
  rw [inetConnect_eq] at h ⊢
  cases hfree : p.lowestFree with
  | none => rfl
  | some fd =>
      cases hfirst : firstTaken false result with
      | none => rfl
      | some rp => simp [hfree, hfirst] at h

theorem inetPassiveSocket_eq_some_iff {doListen : Bool} {result : Option (List (AddrInfo α))}
    {len : ℕ} {p' : Process α} :
    inetPassiveSocket doListen result p = (some (fd, len), p') ↔
      ∃ rp, firstTaken doListen result = some rp ∧ (doListen → rp.setsockopt ∧ rp.listen) ∧
        p.lowestFree = some fd ∧ len = rp.addrlen ∧
        p' = p.set fd (some ⟨some rp.addr, doListen, doListen⟩) := by
  rw [inetPassiveSocket_eq]
  cases hfree : p.lowestFree with
  | none => simp
  | some fd' =>
      cases firstTaken doListen result with
      | none => simp
      | some rp =>
          have hready : (doListen → rp.setsockopt ∧ rp.listen) ↔
              (doListen && !rp.setsockopt) = false ∧ (doListen && !rp.listen) = false := by
            cases doListen <;> simp
          simp only [Option.some.injEq, exists_eq_left', hready]
          split_ifs with hset hlisten
          · simp [hset]
          · simp [hlisten]
          · simp only [Prod.mk.injEq, Option.some.injEq]
            constructor
            · rintro ⟨⟨rfl, rfl⟩, rfl⟩
              exact ⟨⟨Bool.eq_false_iff.mpr hset, Bool.eq_false_iff.mpr hlisten⟩, rfl, rfl, rfl⟩
            · rintro ⟨-, rfl, rfl, rfl⟩
              exact ⟨⟨rfl, rfl⟩, rfl⟩

/-- The socket that stays open. -/
theorem inetPassiveSocket_leaks_iff {doListen : Bool} {result : Option (List (AddrInfo α))}
    (h : (inetPassiveSocket doListen result p).1 = none) :
    (inetPassiveSocket doListen result p).2 ≠ p ↔ doListen ∧ p.lowestFree.isSome ∧
      ∃ rp, firstTaken doListen result = some rp ∧ rp.setsockopt ∧ rp.listen = false := by
  rw [inetPassiveSocket_eq] at h ⊢
  cases hfree : p.lowestFree with
  | none => simp
  | some fd =>
      cases hfirst : firstTaken doListen result with
      | none => simp
      | some rp =>
          simp only [hfree, hfirst] at h ⊢
          split_ifs at h ⊢ with hset hlisten
          · have hfails : rp.setsockopt = false := by simpa using (Bool.and_eq_true_iff.mp hset).2
            simp [hfails]
          · obtain ⟨hdo, hfails⟩ := Bool.and_eq_true_iff.mp hlisten
            have hset' : rp.setsockopt = true := by simpa [hdo] using hset
            simp only [Bool.not_eq_true'] at hfails
            simp [hdo, hset', hfails, set_some_ne hfree]

end Loops

/-- Whatever the addresses are and the calls for them do: a search that succeeds has opened one
socket, which is attached to the first address that is not passed over. After a search that fails
the sockets are as before, except that a socket stays open if it can be bound and `listen` fails. -/
theorem sockets_after_search (doListen : Bool) (result : Option (List (AddrInfo α)))
    (p : Process α) :
    (∀ fd p', inetConnect result p = (some fd, p') ↔ ∃ rp, firstTaken false result = some rp ∧
        p.lowestFree = some fd ∧ p' = p.set fd (some ⟨some rp.addr, false, false⟩)) ∧
      ((inetConnect result p).1 = none → (inetConnect result p).2 = p) ∧
      (∀ fd len p', inetPassiveSocket doListen result p = (some (fd, len), p') ↔
        ∃ rp, firstTaken doListen result = some rp ∧ (doListen → rp.setsockopt ∧ rp.listen) ∧
          p.lowestFree = some fd ∧ len = rp.addrlen ∧
          p' = p.set fd (some ⟨some rp.addr, doListen, doListen⟩)) ∧
      ((inetPassiveSocket doListen result p).1 = none →
        ((inetPassiveSocket doListen result p).2 ≠ p ↔ doListen ∧ p.lowestFree.isSome ∧
          ∃ rp, firstTaken doListen result = some rp ∧ rp.setsockopt ∧ rp.listen = false)) :=
  ⟨fun _ _ => inetConnect_eq_some_iff, inetConnect_of_none,
    fun _ _ _ => inetPassiveSocket_eq_some_iff, inetPassiveSocket_leaks_iff⟩

/-- The one address can be bound to, and `listen` fails: descriptor 0 stays open. -/
example :
    let r := inetListen (some [⟨(), 16, true, true, true, false⟩]) ⟨fun _ => none, 8⟩
    r.1 = none ∧ r.2.fds 0 = some ⟨some (), true, false⟩ := by
  decide

end TlpiExercises.InetSockets
