import TlpiExercises.KvServer

/-!
# What the key-value server carries between requests

Besides `storage`, an iteration hands the next one the contents of `op`, `k` and
`v`. A request is answered from its own line alone exactly when `sscanf` assigns
every variable that is used; otherwise earlier requests show through.
-/
namespace TlpiExercises.KvServer
open ReadLine CText

/-- The values stored by `sscanf` for this connection, if it gets that far. -/
def Connection.items : Connection → Option (List Item)
  | .acceptError => none
  | .accepted cfd _ =>
      let r := (readLine reqMaxLen cfd).1
      if r.ret ≤ 0 then none else some (scanRequest r.buffer)

/-- The line gives `op` and `k`, with `k` not negative, and also `v` when a value
is to be stored. -/
def supplied : List Item → Bool
  | .char op :: .int k :: rest =>
      100 ≤ k.toInt || (0 ≤ k.toInt && (op ≠ letterS || rest ≠ []))
  | _ => false

/-- A connection that fails before `sscanf` or whose line is enough. -/
def Connection.Determined (c : Connection) : Prop :=
  ∀ items, c.items = some items → supplied items

/-- A line that gives all of `op`, `k` and `v` for a set. -/
def Connection.CompleteSet (c : Connection) : Prop :=
  ∃ k v, c.items = some [.char letterS, .int k, .int v]

/-- Whatever two histories left the same `storage`, this connection has the same
outcome and leaves the same `storage` after both; and if it is not a complete set
it changes nothing. -/
def Agree (slots slots' : Slots) (c : Connection) : Prop :=
  ∀ hist hist' outs outs' sv sv', run (.initial slots) hist = some (outs, sv) →
    run (.initial slots') hist' = some (outs', sv') → sv.storage = sv'.storage →
    ∃ out storage s s', iteration sv c = some (out, ⟨storage, s⟩) ∧
      iteration sv' c = some (out, ⟨storage, s'⟩) ∧ (¬ c.CompleteSet → storage = sv.storage)

theorem items_eq_some {c : Connection} {items : List Item} (h : c.items = some items) :
    ∃ cfd written, c = .accepted cfd written ∧ ¬ (readLine reqMaxLen cfd).1.ret ≤ 0 ∧
      scanRequest (readLine reqMaxLen cfd).1.buffer = items := by
  cases c with
  | acceptError => simp [Connection.items] at h
  | accepted cfd written =>
      by_cases hret : (readLine reqMaxLen cfd).1.ret ≤ 0
      · simp [Connection.items, hret] at h
      · exact ⟨cfd, written, rfl, hret, by simpa [Connection.items, hret] using h⟩

theorem iteration_of_items {c : Connection} {items : List Item} (h : c.items = some items) :
    ∃ written, ∀ sv, iteration sv c = answer written sv.storage (sv.slots.assign items) := by
  obtain ⟨cfd, written, rfl, hret, rfl⟩ := items_eq_some h
  exact ⟨written, fun sv => by simp only [iteration, if_neg hret, handleRequest]⟩

theorem iteration_of_no_items {c : Connection} (h : c.items = none) :
    ∃ out, ∀ sv, iteration sv c = some (out, sv) := by
  cases c with
  | acceptError => exact ⟨.acceptFailed, fun _ => rfl⟩
  | accepted cfd written =>
      by_cases hret : (readLine reqMaxLen cfd).1.ret ≤ 0
      · exact ⟨.readFailed, fun sv => by simp only [iteration, if_pos hret]⟩
      · simp [Connection.items, hret] at h

/-- The values stored follow the format, up to where decoding stops. -/
theorem scanRequest_cases (reqStr : List UInt8) :
    scanRequest reqStr = [] ∨ (∃ op, scanRequest reqStr = [.char op]) ∨
      (∃ op k, scanRequest reqStr = [.char op, .int k]) ∨
      ∃ op k v, scanRequest reqStr = [.char op, .int k, .int v] := by
  rw [scanRequest, requestFormat]
  cases cString reqStr with
  | nil => exact .inl rfl
  | cons op s =>
      simp only [sscanf, scanInt_dropWhile]
      rcases scanInt s with _ | ⟨k, s⟩
      · simp
      · rcases h : scanInt s with _ | ⟨v, s⟩ <;> simp [h]

theorem items_cases {c : Connection} {items : List Item} (h : c.items = some items) :
    items = [] ∨ (∃ op, items = [.char op]) ∨ (∃ op k, items = [.char op, .int k]) ∨
      ∃ op k v, items = [.char op, .int k, .int v] := by
  obtain ⟨cfd, written, -, -, rfl⟩ := items_eq_some h
  exact scanRequest_cases _

theorem answer_rejected (slots : Slots) (h : 100 ≤ slots.k.toInt) (written : ℤ)
    (storage : Vector Int32 100) :
    answer written storage slots = some (.rejected, ⟨storage, slots⟩) :=
  if_pos h

theorem answer_negative {slots : Slots} (h : slots.k.toInt < 0) (written : ℤ)
    (storage : Vector Int32 100) : answer written storage slots = none := by
  have hindex : index slots.k = none := dif_neg (by omega)
  simp [answer, hindex, show ¬ 100 ≤ slots.k.toInt by omega]

theorem index_of_range {k : Int32} (hl : 0 ≤ k.toInt) (hr : ¬ 100 ≤ k.toInt) :
    ∃ i, index k = some i :=
  ⟨_, dif_pos ⟨hl, by omega⟩⟩

/-- For the same `op` and `k` the answer depends on `v` only if it is stored. -/
theorem answer_congr {op : UInt8} {k v v' : Int32}
    (hv : op = letterS → k.toInt < 100 → v = v') (hpos : 0 ≤ k.toInt) (written : ℤ)
    (storage : Vector Int32 100) :
    ∃ out storage', answer written storage ⟨op, k, v⟩ = some (out, ⟨storage', ⟨op, k, v⟩⟩) ∧
      answer written storage ⟨op, k, v'⟩ = some (out, ⟨storage', ⟨op, k, v'⟩⟩) ∧
      (op ≠ letterS ∨ 100 ≤ k.toInt → storage' = storage) := by
  by_cases hge : 100 ≤ k.toInt
  · exact ⟨.rejected, storage, answer_rejected ⟨op, k, v⟩ hge _ _,
      answer_rejected ⟨op, k, v'⟩ hge _ _, fun _ => rfl⟩
  · obtain ⟨i, hi⟩ := index_of_range hpos hge
    have h₁ := answer_index ⟨op, k, v⟩ hi written storage
    have h₂ := answer_index ⟨op, k, v'⟩ hi written storage
    by_cases hS : op = letterS
    · obtain rfl := hv hS (by omega)
      simp only [if_pos hS] at h₁
      exact ⟨_, _, h₁, h₁, fun h => by simp [hS, hge] at h⟩
    · simp only [if_neg hS] at h₁ h₂
      exact ⟨_, _, h₁, h₂, fun _ => rfl⟩

/-- A line that is enough is answered from `storage` alone. -/
theorem agree_of_determined {c : Connection} (h : c.Determined) (slots slots' : Slots) :
    Agree slots slots' c := by
  intro hist hist' outs outs' sv sv' hrun hrun' hstorage
  rcases hitems : c.items with _ | items
  · obtain ⟨out, hiter⟩ := iteration_of_no_items hitems
    exact ⟨out, sv.storage, sv.slots, sv'.slots, hiter sv, by rw [hiter sv', hstorage],
      fun _ => rfl⟩
  · obtain ⟨written, hiter⟩ := iteration_of_items hitems
    have hsupplied := h items hitems
    rw [hiter sv, hiter sv', ← hstorage]
    rcases items_cases hitems with rfl | ⟨op, rfl⟩ | ⟨op, k, rfl⟩ | ⟨op, k, v, rfl⟩
    · simp [supplied] at hsupplied
    · simp [supplied] at hsupplied
    · have hcases : 100 ≤ k.toInt ∨ 0 ≤ k.toInt ∧ op ≠ letterS := by
        simpa [supplied] using hsupplied
      have hpos : 0 ≤ k.toInt := by omega
      have hv : op = letterS → k.toInt < 100 → sv.slots.v = sv'.slots.v := by
        intro hop hlt
        rcases hcases with hge | ⟨-, hne⟩
        · omega
        · exact absurd hop hne
      have hkeeps : op ≠ letterS ∨ 100 ≤ k.toInt := hcases.symm.imp_left And.right
      obtain ⟨out, storage, h₁, h₂, hsame⟩ := answer_congr hv hpos written sv.storage
      exact ⟨out, storage, ⟨op, k, sv.slots.v⟩, ⟨op, k, sv'.slots.v⟩, h₁, h₂,
        fun _ => hsame hkeeps⟩
    · have hcases : 100 ≤ k.toInt ∨ 0 ≤ k.toInt := by simpa [supplied] using hsupplied
      have hpos : 0 ≤ k.toInt := by omega
      have hv : op = letterS → k.toInt < 100 → v = v := fun _ _ => rfl
      obtain ⟨out, storage, h₁, h₂, hsame⟩ := answer_congr hv hpos written sv.storage
      refine ⟨out, storage, ⟨op, k, v⟩, ⟨op, k, v⟩, h₁, h₂, fun hset => hsame (.inl ?_)⟩
      rintro rfl
      exact hset ⟨k, v, hitems⟩

/-- A reply determines the key and the value it shows. -/
theorem reply_inj {k k' x x' : Int32} (h : reply k x = reply k' x') : k = k' ∧ x = x' := by
  have hbracket : isdigit 93 = false := by decide
  have hnewline : isdigit newline = false := by decide
  have hkey := congrArg (fun s => scanInt s.tail) h
  simp only [reply, List.tail_cons, scanInt_printInt _ hbracket] at hkey
  obtain ⟨hk, hrest⟩ := Prod.mk.inj (Option.some.inj hkey)
  have htext : printInt x.toInt ++ [newline] = printInt x'.toInt ++ [newline] := by
    simpa using hrest
  have hvalue := congrArg scanInt htext
  rw [scanInt_printInt _ hnewline, scanInt_printInt _ hnewline] at hvalue
  obtain ⟨hx, -⟩ := Prod.mk.inj (Option.some.inj hvalue)
  exact ⟨Int32.toInt_inj.mp hk, Int32.toInt_inj.mp hx⟩

theorem respond_inj {written : ℤ} {response response' : List UInt8}
    (h : respond written response = respond written response') : response = response' := by
  unfold respond at h
  split_ifs at h <;> simpa using h

/-- Two reads of different keys leave different keys behind, and set nothing. -/
theorem left_over_keys (slots : Slots) :
    ∃ hist hist' outs outs' storage v,
      run (.initial slots) hist = some (outs, ⟨storage, ⟨71, 1, v⟩⟩) ∧
      run (.initial slots) hist' = some (outs', ⟨storage, ⟨71, 2, v⟩⟩) :=
  ⟨[.accepted (ofBytes [71, 32, 49, newline]) 6], [.accepted (ofBytes [71, 32, 50, newline]) 6],
    _, _, _, _, rfl, rfl⟩

/-- Two sets in either order leave the same storage and different values behind. -/
theorem left_over_values (slots : Slots) :
    ∃ hist hist' outs outs' storage,
      run (.initial slots) hist = some (outs, ⟨storage, ⟨letterS, 2, 5⟩⟩) ∧
      run (.initial slots) hist' = some (outs', ⟨storage, ⟨letterS, 1, 7⟩⟩) :=
  ⟨[.accepted (ofBytes [83, 32, 49, 32, 55, newline]) 6,
      .accepted (ofBytes [83, 32, 50, 32, 53, newline]) 6],
    [.accepted (ofBytes [83, 32, 50, 32, 53, newline]) 6,
      .accepted (ofBytes [83, 32, 49, 32, 55, newline]) 6], _, _, _, rfl, rfl⟩

/-- The key of a reply is the one in the variables. -/
theorem answer_key {slots : Slots} {i : Fin 100} (h : index slots.k = some i) {written : ℤ}
    {storage : Vector Int32 100} {out : Outcome} {sv : Server}
    (hout : answer written storage slots = some (out, sv)) :
    ∃ x, out = respond written (reply slots.k x) := by
  rw [answer_index slots h] at hout
  split_ifs at hout
  · exact ⟨slots.v, (Prod.mk.inj (Option.some.inj hout)).1.symm⟩
  · exact ⟨storage[i], (Prod.mk.inj (Option.some.inj hout)).1.symm⟩

/-- The value of the reply to a set is the one in the variables. -/
theorem answer_stored {k v : Int32} {i : Fin 100} (h : index k = some i) {written : ℤ}
    {storage : Vector Int32 100} {out : Outcome} {sv : Server}
    (hout : answer written storage ⟨letterS, k, v⟩ = some (out, sv)) :
    out = respond written (reply k v) := by
  have hanswer := answer_index ⟨letterS, k, v⟩ h written storage
  rw [if_pos (show (Slots.mk letterS k v).op = letterS from rfl), hout] at hanswer
  exact (Prod.mk.inj (Option.some.inj hanswer)).1

/-- A line without a key is answered for the key of the request before it. -/
theorem not_agree_of_no_key {c : Connection} {items : List Item} (hitems : c.items = some items)
    (hkeep : ∀ s : Slots, (s.assign items).k = s.k) (slots : Slots) : ¬ Agree slots slots c := by
  intro h
  obtain ⟨written, hiter⟩ := iteration_of_items hitems
  obtain ⟨hist, hist', outs, outs', storage, v, hrun, hrun'⟩ := left_over_keys slots
  obtain ⟨out, storage', s, s', hout, hout', -⟩ := h hist hist' _ _ _ _ hrun hrun' rfl
  rw [hiter] at hout hout'
  have hone : index (Slots.assign ⟨71, 1, v⟩ items).k = some 1 := by
    rw [hkeep]
    exact index_keyInt 1
  have htwo : index (Slots.assign ⟨71, 2, v⟩ items).k = some 2 := by
    rw [hkeep]
    exact index_keyInt 2
  obtain ⟨x, rfl⟩ := answer_key hone hout
  obtain ⟨x', heq⟩ := answer_key htwo hout'
  obtain ⟨hkeys, -⟩ := reply_inj (respond_inj heq)
  have hne : (1 : Int32) ≠ 2 := by decide
  exact hne (by simpa only [hkeep] using hkeys)

/-- A set without a value stores the value of the set before it. -/
theorem not_agree_of_no_value {c : Connection} {k : Int32}
    (hitems : c.items = some [.char letterS, .int k]) {i : Fin 100} (hk : index k = some i)
    (slots : Slots) : ¬ Agree slots slots c := by
  intro h
  obtain ⟨written, hiter⟩ := iteration_of_items hitems
  obtain ⟨hist, hist', outs, outs', storage, hrun, hrun'⟩ := left_over_values slots
  obtain ⟨out, storage', s, s', hout, hout', -⟩ := h hist hist' _ _ _ _ hrun hrun' rfl
  simp only [hiter, Slots.assign] at hout hout'
  have hfive : out = respond written (reply k 5) := answer_stored hk hout
  have hseven : out = respond written (reply k 7) := answer_stored hk hout'
  obtain ⟨-, hvalues⟩ := reply_inj (respond_inj (hfive.symm.trans hseven))
  have hne : (5 : Int32) ≠ 7 := by decide
  exact hne hvalues

/-- An answer for a negative key is not defined. -/
theorem nonneg_of_agree {c : Connection} {slots : Slots} (h : Agree slots slots c)
    {items : List Item} (hitems : c.items = some items) : 0 ≤ (slots.assign items).k.toInt := by
  by_contra hneg
  obtain ⟨written, hiter⟩ := iteration_of_items hitems
  obtain ⟨out, storage', s, s', hout, -⟩ := h [] [] _ _ _ _ rfl rfl rfl
  rw [hiter, answer_negative (by simpa [Server.initial] using hneg)] at hout
  contradiction

theorem determined_of_agree {c : Connection} {slots : Slots} (h : Agree slots slots c) :
    c.Determined := by
  intro items hitems
  have hpos := nonneg_of_agree h hitems
  rcases items_cases hitems with rfl | ⟨op, rfl⟩ | ⟨op, k, rfl⟩ | ⟨op, k, v, rfl⟩
  · exact absurd h (not_agree_of_no_key hitems (fun _ => rfl) slots)
  · exact absurd h (not_agree_of_no_key hitems (fun _ => rfl) slots)
  · simp only [Slots.assign] at hpos
    by_cases hge : 100 ≤ k.toInt
    · simp [supplied, hge]
    · have hop : op ≠ letterS := by
        rintro rfl
        obtain ⟨i, hi⟩ := index_of_range hpos hge
        exact not_agree_of_no_value hitems hi slots h
      simp [supplied, hpos, hop]
  · simp only [Slots.assign] at hpos
    simp [supplied, hpos]

/-- The server answers a connection from `storage` alone exactly when the line
supplies `op` and a key that is not negative, and also `v` if it is to be stored. -/
theorem agree_iff_determined (c : Connection) :
    (∀ slots, Agree slots slots c ↔ c.Determined) ∧
      (c.Determined → ∀ slots slots', Agree slots slots' c) :=
  ⟨fun slots => ⟨determined_of_agree, fun h => agree_of_determined h slots slots⟩,
    fun h slots slots' => agree_of_determined h slots slots'⟩

/-- After `S 1 7`, `S 2 5` the request `S 3` stores 5, and after the same two
requests in the other order it stores 7, although `storage` was the same. -/
theorem stale_value_stored :
    ¬ Agree ⟨0, 0, 0⟩ ⟨0, 0, 0⟩ (.accepted (ofBytes [83, 32, 51, newline]) 6) := by
  intro h
  obtain ⟨out, storage, s, s', hout, hout', -⟩ :=
    h [.accepted (ofBytes [83, 32, 49, 32, 55, newline]) 6,
        .accepted (ofBytes [83, 32, 50, 32, 53, newline]) 6]
      [.accepted (ofBytes [83, 32, 50, 32, 53, newline]) 6,
        .accepted (ofBytes [83, 32, 49, 32, 55, newline]) 6] _ _ _ _ rfl rfl rfl
  have hfive : out = .replied [91, 51, 93, 61, 53, newline] :=
    (Prod.mk.inj (Option.some.inj hout)).1.symm
  have hseven : out = .replied [91, 51, 93, 61, 55, newline] :=
    (Prod.mk.inj (Option.some.inj hout')).1.symm
  rw [hfive] at hseven
  exact absurd hseven (by decide)

end TlpiExercises.KvServer
