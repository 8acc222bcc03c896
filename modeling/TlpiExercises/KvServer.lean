import TlpiExercises.CText
import TlpiExercises.KeyedList
import TlpiExercises.ReadLine

/-!
# The key-value server

One iteration of the accept loop reads a line, decodes it with `sscanf` into the
variables `op`, `k` and `v`, rejects large keys, updates `storage` and replies.
The three variables are declared in the loop body without initial values, so
what `sscanf` does not assign is whatever their places on the stack hold: left
over from the iteration before, and arbitrary at the start.
-/
namespace TlpiExercises.KvServer
open ReadLine CText

/-- `REQ_MAX_LEN`. -/
abbrev reqMaxLen : ℕ := 100

/-- `RES_MAX_LEN`. -/
abbrev resMaxLen : ℕ := 100

/-- `'S'`. -/
abbrev letterS : UInt8 := 83

/-- The places of the variables `op`, `k` and `v`. -/
structure Slots where
  op : UInt8
  k : Int32
  v : Int32
  deriving DecidableEq, Repr

/-- What is kept between iterations. -/
structure Server where
  storage : Vector Int32 100
  slots : Slots
  deriving DecidableEq, Repr

/-- The server before the first connection. Only `storage` is initialised. -/
def Server.initial (slots : Slots) : Server := ⟨Vector.replicate 100 0, slots⟩

/-- `"%c %d %d"`. -/
def requestFormat : List Directive := [.char, .space, .int, .space, .int]

/-- The values `sscanf(reqStr, "%c %d %d", ...)` stores. -/
def scanRequest (reqStr : List UInt8) : List Item := sscanf requestFormat (cString reqStr)

/-- The variables after `sscanf` stored these values in `&op`, `&k`, `&v`. -/
def Slots.assign (s : Slots) : List Item → Slots
  | [.char op] => { s with op }
  | [.char op, .int k] => { s with op, k }
  | [.char op, .int k, .int v] => { op, k, v }
  | _ => s

/-- The cell `storage[k]`, if `k` is one of its indices. -/
def index (k : Int32) : Option (Fin 100) :=
  if h : 0 ≤ k.toInt ∧ k.toInt < 100 then some ⟨k.toInt.toNat, by omega⟩ else none

/-- `sprintf(response, "[%d]=%d\n", k, storage[k])`. -/
def reply (k x : Int32) : List UInt8 :=
  91 :: (printInt k.toInt ++ 93 :: 61 :: (printInt x.toInt ++ [newline]))

/-- A client as the server sees it: `accept` fails, or the connection has this
input and `write` returns this value. -/
inductive Connection where
  | acceptError
  | accepted (cfd : List Event) (written : ℤ)
  deriving DecidableEq, Repr

/-- How an iteration ends. -/
inductive Outcome where
  | acceptFailed
  | readFailed
  | rejected
  | writeFailed (response : List UInt8)
  | replied (response : List UInt8)
  deriving DecidableEq, Repr

/-- `write(cfd, response, resLen) != resLen`. -/
def respond (written : ℤ) (response : List UInt8) : Outcome :=
  if written ≠ response.length then .writeFailed response else .replied response

/-- The part of the loop body after `sscanf`. An access outside `storage` has no
defined result. -/
def answer (written : ℤ) (storage : Vector Int32 100) (slots : Slots) :
    Option (Outcome × Server) :=
  if 100 ≤ slots.k.toInt then some (.rejected, ⟨storage, slots⟩)
  else do
    let i ← index slots.k
    let storage := if slots.op = letterS then storage.set i slots.v else storage
    some (respond written (reply slots.k storage[i]), ⟨storage, slots⟩)

/-- The part of the loop body after `readLine`. -/
def handleRequest (written : ℤ) (sv : Server) (reqStr : List UInt8) : Option (Outcome × Server) :=
  answer written sv.storage (sv.slots.assign (scanRequest reqStr))

/-- One iteration of the accept loop. -/
def iteration (sv : Server) : Connection → Option (Outcome × Server)
  | .acceptError => some (.acceptFailed, sv)
  | .accepted cfd written =>
      let r := (readLine reqMaxLen cfd).1
      if r.ret ≤ 0 then some (.readFailed, sv) else handleRequest written sv r.buffer

/-- The loop over these connections. -/
def run (sv : Server) : List Connection → Option (List Outcome × Server)
  | [] => some ([], sv)
  | c :: cs => do
      let (out, sv) ← iteration sv c
      let (outs, sv) ← run sv cs
      some (out :: outs, sv)

theorem run_append {sv : Server} {cs : List Connection} {outs : List Outcome} {sv' : Server}
    (h : run sv cs = some (outs, sv')) {c : Connection} {out : Outcome} {sv'' : Server}
    (hc : iteration sv' c = some (out, sv'')) : run sv (cs ++ [c]) = some (outs ++ [out], sv'') := by
  induction cs generalizing sv outs with
  | nil =>
      obtain ⟨rfl, rfl⟩ : outs = [] ∧ sv' = sv := by simpa [run, eq_comm] using h
      simp [run, hc]
  | cons d cs ih =>
      simp only [run, Option.bind_eq_bind, Option.bind_eq_some_iff, Option.some.injEq] at h
      obtain ⟨⟨out₁, sv₁⟩, hiter, ⟨outs₁, sv₂⟩, hrest, hout⟩ := h
      obtain ⟨rfl, rfl⟩ : out₁ :: outs₁ = outs ∧ sv₂ = sv' := by simpa using hout
      simp [run, hiter, ih hrest]

/-- A reply fits the response buffer with its terminating zero. -/
theorem reply_length_lt (k x : Int32) : (reply k x).length < resMaxLen := by
  have hk := printInt_length_le k
  have hx := printInt_length_le x
  simp only [reply, resMaxLen, List.length_cons, List.length_append, List.length_nil]
  omega

/-- A request of the protocol: set a key, or read one with any other letter. -/
inductive Request where
  | set (k : Fin 100) (v : Int32)
  | get (op : UInt8) (k : Fin 100)
  deriving DecidableEq, Repr

def Request.key : Request → Fin 100
  | .set k _ => k
  | .get _ k => k

/-- `line` is a well formed text of the request, without its newline. -/
inductive Encodes : Request → List UInt8 → Prop
  | set {k : Fin 100} {v : Int32} {kText vText : List UInt8} : IsNumeral kText k →
      IsNumeral vText v.toInt → Encodes (.set k v) (letterS :: 32 :: (kText ++ 32 :: vText))
  | get {op : UInt8} {k : Fin 100} {kText : List UInt8} : op ≠ letterS → op ≠ newline → op ≠ 0 →
      IsNumeral kText k → Encodes (.get op k) (op :: 32 :: kText)

/-- What a connection asks for: nothing when `accept` or `readLine` fails, else
the request on its first line, shorter than the request buffer. -/
inductive Asks : Connection → Option Request → Prop
  | acceptError : Asks .acceptError none
  | readError {cfd : List Event} {written : ℤ} : (readLine reqMaxLen cfd).1.ret ≤ 0 →
      Asks (.accepted cfd written) none
  | request {r : Request} {line : List UInt8} {cfd : List Event} {written : ℤ} : Encodes r line →
      FirstLine cfd line → line.length < reqMaxLen → Asks (.accepted cfd written) (some r)

/-- The pair a request stores. -/
def stored : Option Request → Option (Fin 100 × Int32)
  | some (.set k v) => some (k, v)
  | _ => none

/-- The value of the most recent set of `k`, or 0. -/
def latest (asked : List (Option Request)) (k : Fin 100) : Int32 :=
  ((KeyedList.lookup Prod.fst (asked.filterMap stored).reverse k).map Prod.snd).getD 0

/-- A key as the program holds it. -/
def keyInt (k : Fin 100) : Int32 := Int32.ofInt k

@[simp] theorem keyInt_toInt (k : Fin 100) : (keyInt k).toInt = k := by
  have hk := k.isLt
  exact Int32.toInt_ofInt_of_le (by omega) (by omega)

@[simp] theorem index_keyInt (k : Fin 100) : index (keyInt k) = some k := by
  simp [index]

/-- What `sscanf` stores for a well formed line. -/
def Request.items : Request → List Item
  | .set k v => [.char letterS, .int (keyInt k), .int v]
  | .get op k => [.char op, .int (keyInt k)]

theorem Encodes.zero_notMem {r : Request} {line : List UInt8} (h : Encodes r line) : 0 ∉ line := by
  cases h with
  | set hk hv =>
      simp only [List.mem_cons, List.mem_append, not_or]
      exact ⟨by decide, by decide, hk.notMem (by decide) (by decide) (by decide), by decide,
        hv.notMem (by decide) (by decide) (by decide)⟩
  | get hS hnl hzero hk =>
      simp only [List.mem_cons, not_or]
      exact ⟨hzero.symm, by decide, hk.notMem (by decide) (by decide) (by decide)⟩

/-- A well formed line is decoded into the fields of its request. -/
theorem scanRequest_encodes {r : Request} {line tail : List UInt8} (h : Encodes r line)
    (htail : tail = [] ∨ tail = [newline]) :
    scanRequest (line ++ tail ++ [0]) = r.items := by
  have hdigit : ∀ c ∈ tail.head?, isdigit c = false := by
    rcases htail with rfl | rfl
    · simp
    · exact head_not_digit (by decide) []
  have hend : sscanf [.space, .int] tail = [] := by
    rcases htail with rfl | rfl <;> decide
  have hzero : 0 ∉ line ++ tail := by
    intro hmem
    rcases List.mem_append.mp hmem with hmem | hmem
    · exact h.zero_notMem hmem
    · rcases htail with rfl | rfl <;> exact absurd hmem (by decide)
  rw [scanRequest, cString_terminated hzero, requestFormat]
  cases h with
  | @set k v kText vText hk hv =>
      rw [← keyInt_toInt] at hk
      have hspace : isdigit 32 = false := by decide
      have hscan := sscanf_int hk (head_not_digit hspace (vText ++ tail)) [.space, .int]
      rw [sscanf_int hv hdigit] at hscan
      simpa [sscanf, Request.items] using hscan
  | @get op k kText hS hnl hz hk =>
      rw [← keyInt_toInt] at hk
      have hscan := sscanf_int hk hdigit [.space, .int]
      rw [hend] at hscan
      simpa [sscanf, Request.items] using hscan

/-- `storage` after a request. -/
def storeAsked (storage : Vector Int32 100) (ask : Option Request) : Vector Int32 100 :=
  match stored ask with
  | some (k, v) => storage.set k v
  | none => storage

theorem latest_append (asked : List (Option Request)) (ask : Option Request) (k : Fin 100) :
    latest (asked ++ [ask]) k =
      match stored ask with
      | some (k', v) => if k' = k then v else latest asked k
      | none => latest asked k := by
  rcases h : stored ask with _ | ⟨k', v⟩
  · simp [latest, h]
  · by_cases hk : k' = k
    · subst hk
      simp [latest, h]
    · simp [latest, h, hk, KeyedList.lookup_cons_of_ne]

/-- The array keeps holding the most recent value of every key. -/
theorem storeAsked_latest {storage : Vector Int32 100} {asked : List (Option Request)}
    (h : ∀ k : Fin 100, storage[k] = latest asked k) (ask : Option Request) (k : Fin 100) :
    (storeAsked storage ask)[k] = latest (asked ++ [ask]) k := by
  rw [latest_append, storeAsked]
  rcases stored ask with _ | ⟨k', v⟩
  · exact h k
  · rw [← h k]
    simp only [Fin.getElem_fin, Vector.getElem_set, Fin.val_inj]

theorem storeAsked_other (storage : Vector Int32 100) (r : Request) {k : Fin 100} (h : k ≠ r.key) :
    (storeAsked storage (some r))[k] = storage[k] := by
  cases r with
  | set k' v =>
      have hne : k'.val ≠ k.val := fun he => h (Fin.ext he.symm)
      simp [storeAsked, stored, hne]
  | get op k' => rfl

theorem answer_index (slots : Slots) {i : Fin 100} (h : index slots.k = some i) (written : ℤ)
    (storage : Vector Int32 100) :
    answer written storage slots =
      if slots.op = letterS then
        some (respond written (reply slots.k slots.v), ⟨storage.set i slots.v, slots⟩)
      else some (respond written (reply slots.k storage[i]), ⟨storage, slots⟩) := by
  have hk : ¬ 100 ≤ slots.k.toInt := by
    intro hge
    rw [index, dif_neg (by omega)] at h
    contradiction
  simp only [answer, if_neg hk, h]
  split_ifs <;> simp

/-- After the decoding of a well formed line the request is carried out: the
reply shows the value its key now has. -/
theorem handleRequest_items {reqStr : List UInt8} {r : Request} (h : scanRequest reqStr = r.items)
    (hget : ∀ op k, r = .get op k → op ≠ letterS) (written : ℤ) (sv : Server) :
    handleRequest written sv reqStr =
      some (respond written (reply (keyInt r.key) (storeAsked sv.storage (some r))[r.key]),
        ⟨storeAsked sv.storage (some r), sv.slots.assign r.items⟩) := by
  rw [handleRequest, h]
  cases r with
  | set k v =>
      have hindex : index (sv.slots.assign (Request.set k v).items).k = some k := index_keyInt k
      rw [answer_index _ hindex]
      simp [Request.items, Slots.assign, storeAsked, stored, Request.key]
  | get op k =>
      have hindex : index (sv.slots.assign (Request.get op k).items).k = some k := index_keyInt k
      have hop := hget op k rfl
      rw [answer_index _ hindex]
      simp [Request.items, Slots.assign, storeAsked, stored, Request.key, hop]

theorem iteration_request {r : Request} {line : List UInt8} {cfd : List Event} (h : Encodes r line)
    (hline : FirstLine cfd line) (hlen : line.length < reqMaxLen) (written : ℤ) (sv : Server) :
    iteration sv (.accepted cfd written) =
      some (respond written (reply (keyInt r.key) (storeAsked sv.storage (some r))[r.key]),
        ⟨storeAsked sv.storage (some r), sv.slots.assign r.items⟩) := by
  have hne : line ≠ [] := by cases h <;> simp
  obtain ⟨tail, htail, hread⟩ := readLine_firstLine hline hne hlen
  have hget : ∀ op k, r = .get op k → op ≠ letterS := by
    rintro op k rfl
    cases h with
    | get hop => exact hop
  have hpos : ¬ (((line ++ tail).length : ℕ) : ℤ) ≤ 0 := by
    have := List.length_pos_iff.mpr hne
    rw [List.length_append]
    omega
  simp only [iteration, hread, LineResult.finished, if_neg hpos]
  exact handleRequest_items (scanRequest_encodes h htail) hget written sv

/-- What one connection does to `storage`. -/
theorem iteration_asks {c : Connection} {ask : Option Request} (h : Asks c ask) (sv : Server) :
    ∃ out slots, iteration sv c = some (out, ⟨storeAsked sv.storage ask, slots⟩) ∧
      (ask = none → out = .acceptFailed ∨ out = .readFailed) ∧
      ∀ r, ask = some r → ∃ cfd written, c = .accepted cfd written ∧
        out = respond written (reply (keyInt r.key) (storeAsked sv.storage ask)[r.key]) := by
  cases h with
  | acceptError => exact ⟨.acceptFailed, sv.slots, rfl, fun _ => .inl rfl, by simp⟩
  | readError hret =>
      refine ⟨.readFailed, sv.slots, ?_, fun _ => .inr rfl, by simp⟩
      simp only [iteration, if_pos hret]
      rfl
  | @request r line cfd written henc hline hlen =>
      have hiter := iteration_request henc hline hlen written sv
      refine ⟨_, _, hiter, by simp, ?_⟩
      rintro r' ⟨⟩
      exact ⟨cfd, written, rfl, rfl⟩

/-- Over any run `storage` keeps holding the most recent value of every key. -/
theorem run_asks {cs : List Connection} {asked : List (Option Request)}
    (h : List.Forall₂ Asks cs asked) {sv : Server} {before : List (Option Request)}
    (hsv : ∀ k : Fin 100, sv.storage[k] = latest before k) :
    ∃ outs sv', run sv cs = some (outs, sv') ∧
      ∀ k : Fin 100, sv'.storage[k] = latest (before ++ asked) k := by
  induction h generalizing sv before with
  | nil => exact ⟨[], sv, rfl, by simpa using hsv⟩
  | @cons c ask cs asked hc hcs ih =>
      obtain ⟨out, slots, hiter, -⟩ := iteration_asks hc sv
      have hnext : ∀ k : Fin 100, (Server.mk (storeAsked sv.storage ask) slots).storage[k] =
          latest (before ++ [ask]) k := storeAsked_latest hsv ask
      obtain ⟨outs, sv', hrun, hlatest⟩ := ih hnext
      refine ⟨out :: outs, sv', by simp [run, hiter, hrun], ?_⟩
      simpa using hlatest

theorem initial_latest (slots : Slots) (k : Fin 100) :
    (Server.initial slots).storage[k] = latest [] k := by
  simp [Server.initial, latest, KeyedList.lookup]

/-- The server is a map from keys to values that starts at zero. In every run,
the next connection is answered with the most recent value of its key, its own
request included, whether the write of the answer succeeds or not, and changes no
other key; one that fails before its request is read changes nothing. -/
theorem kv_server_is_map (slots : Slots) {cs : List Connection} {asked : List (Option Request)}
    (hcs : List.Forall₂ Asks cs asked) {c : Connection} {ask : Option Request} (hc : Asks c ask) :
    ∃ outs sv out sv', run (.initial slots) cs = some (outs, sv) ∧
      iteration sv c = some (out, sv') ∧
      run (.initial slots) (cs ++ [c]) = some (outs ++ [out], sv') ∧
      (∀ k : Fin 100, sv.storage[k] = latest asked k) ∧
      (∀ k : Fin 100, sv'.storage[k] = latest (asked ++ [ask]) k) ∧
      (ask = none → (out = .acceptFailed ∨ out = .readFailed) ∧ sv'.storage = sv.storage) ∧
      ∀ r, ask = some r →
        (∃ cfd written, c = .accepted cfd written ∧
          out = respond written (reply (keyInt r.key) (latest (asked ++ [ask]) r.key))) ∧
        (reply (keyInt r.key) (latest (asked ++ [ask]) r.key)).length < resMaxLen ∧
        ∀ k, k ≠ r.key → sv'.storage[k] = sv.storage[k] := by
  obtain ⟨outs, sv, hrun, hlatest⟩ := run_asks hcs (initial_latest slots)
  obtain ⟨out, slots', hiter, hnone, hsome⟩ := iteration_asks hc sv
  have hnext := storeAsked_latest hlatest ask
  refine ⟨outs, sv, out, _, hrun, hiter, run_append hrun hiter, hlatest, hnext, ?_, ?_⟩
  · rintro rfl
    exact ⟨hnone rfl, rfl⟩
  · rintro r rfl
    obtain ⟨cfd, written, hconn, hout⟩ := hsome r rfl
    rw [hnext] at hout
    refine ⟨⟨cfd, written, hconn, hout⟩, reply_length_lt _ _, ?_⟩
    intro k hk
    exact storeAsked_other sv.storage r hk

/-- A set of key 3 whose reply is lost, a failed `accept`, then a read of key 3. -/
theorem kv_server_is_map_lost_reply :
    ∃ outs sv, run (.initial ⟨0, 0, 0⟩) [.accepted (ofBytes [83, 32, 51, 32, 45, 55, 10]) (-1),
        .acceptError, .accepted (.error .EINTR :: ofBytes [71, 32, 51]) 7] = some (outs, sv) ∧
      outs.getLast? = some (.replied [91, 51, 93, 61, 45, 55, 10]) := by
  have hthree : IsNumeral [51] (3 : Fin 100) := .unsigned (by decide) (by simp [isdigit])
  have hseven : IsNumeral [45, 55] (Int32.toInt (-7)) := .minus (by decide) (by simp [isdigit])
  have hset : Asks (.accepted (ofBytes [83, 32, 51, 32, 45, 55, 10]) (-1)) (some (.set 3 (-7))) :=
    .request (.set hthree hseven)
      (.terminated (delivers_ofBytes [83, 32, 51, 32, 45, 55]) (by decide) []) (by decide)
  have hget : Asks (.accepted (.error .EINTR :: ofBytes [71, 32, 51]) 7) (some (.get 71 3)) :=
    .request (.get (by decide) (by decide) (by decide) hthree)
      (.eof (delivers_ofBytes [71, 32, 51]) (by decide)) (by decide)
  obtain ⟨outs, sv, out, sv', -, -, hrun, -, -, -, hout⟩ :=
    kv_server_is_map ⟨0, 0, 0⟩ (.cons hset (.cons .acceptError .nil)) hget
  obtain ⟨⟨cfd, written, hconn, hreply⟩, -⟩ := hout _ rfl
  obtain ⟨rfl, rfl⟩ := Connection.accepted.inj hconn
  refine ⟨outs ++ [out], sv', hrun, ?_⟩
  rw [List.getLast?_concat, hreply]
  decide

end TlpiExercises.KvServer
