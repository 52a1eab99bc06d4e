/-
How a node keeps its own listing (`Core::advertise`): the transports the ledger lists for it brought in
line with the address its endpoint is reachable at, by whichever is cheaper of writing the array whole
and editing the entries that moved.
-/
import IrohLotus.Lib.Edits
import IrohLotus.Lotusd.Listing
import IrohLotus.Lotusd.Signing

namespace IrohLotus.Lotusd

open Std Outcome Forest IrohLotus.Wire IrohLotus.Storage IrohLotus.State

variable [Externals]

/-! ## The model -/

/-- One envelope's worth of change to the transports listed for this node. -/
inductive Update where
  | transports (entries : List Value)
  | replace (index : UInt32) (entry : Value)
  | drop (index : UInt32)
  | append (entry : Value)
deriving DecidableEq

/-- What `Core::advertise` did. -/
inductive Advertised where
  | unchanged
  | written (digest : EnvelopeDigest)
  | notListed
  | otherEndpoint (id : Externals.EndpointId)
  | cannotSign (reason : Core.CannotSignAlone)

/-- The key of the transports in an address. -/
def ADDRS : String := "addrs"

/-- `u32::try_from` of an index. -/
def u32TryFromIndex (index : Nat) : Option UInt32 := if index < 2 ^ 32 then some (UInt32.ofNat index) else none

/-- The edits that take what is listed to `wanted`: an index the listing has no use for is spent on an
entry it lacks, what is left over is dropped or appended. A listing longer than an index can address is
not one to edit. -/
def transportEdits (listed wanted : List Value) : Option (List Update) := do
  let spare ← (Edits.spareFrom wanted 0 [] listed).mapM u32TryFromIndex
  let missing := wanted.filter fun entry => entry ∉ listed
  let paired := min spare.length missing.length
  let appended := (missing.drop paired).map .append
  let replaced := ((spare.take paired).zip (missing.take paired)).map fun (index, entry) => .replace index entry
  let dropped := (spare.drop paired).reverse.map .drop
  pure (appended ++ replaced ++ dropped)

/-- What a run of envelopes costs stored and gossiped. -/
def batchBytes [Encoding] : List Envelope → Except WireError Nat
  | [] => pure 0
  | envelope :: batch => do
    let here ← envelope.encodedLen
    let rest ← batchBytes batch
    pure (here + rest)

namespace NodeKeys

variable (keys : NodeKeys)

/-- The path to the `iroh` field of this node's own entry, with `below` beneath it. -/
def listingPath (below : List Subkey) : SubkeyPath :=
  ⟨[.key (Externals.keyIdToHex keys.keyId), .key "iroh"] ++ below, List.append_ne_nil_of_left_ne_nil (List.cons_ne_nil _ _) _⟩

/-- The message `update` becomes, chained onto `prev`. -/
def advertiseMsg (prev : EnvelopeDigest) : Update → Msg
  | .transports entries => .setNamespaceKey ⟨prev, clusterNodesKey, keys.listingPath [.key ADDRS], some (.array entries)⟩
  | .replace index entry =>
    .setNamespaceKey ⟨prev, clusterNodesKey, keys.listingPath [.key ADDRS, .index index], some entry⟩
  | .drop index => .setNamespaceKey ⟨prev, clusterNodesKey, keys.listingPath [.key ADDRS, .index index], none⟩
  | .append entry => .amendNamespaceKey ⟨prev, clusterNodesKey, some (keys.listingPath [.key ADDRS]), .appendEntry entry⟩

/-- Signs `updates` into a run, each envelope chained onto the one before it. -/
def signUpdates : EnvelopeDigest → List Update → Except WireError (List Envelope)
  | _, [] => pure []
  | prev, update :: updates => do
    let envelope ← keys.sign (Envelope.new (keys.advertiseMsg prev update))
    let next ← envelope.digest
    let batch ← signUpdates next updates
    pure (envelope :: batch)

end NodeKeys

namespace Core

variable (core : Core) (keys : NodeKeys)

/-- How to reach each node the cluster lists. -/
def peerAddresses : Res Error (ExtTreeMap KeyId EndpointAddr) := (core.chain.ledger.peerAddresses core.storage).mapErr .apply

/-- The edits of this node's listing, none where it holds no array to edit. -/
def listedEdits (wanted : List Value) : Res Error (Option (List Update)) := do
  match ← core.storage.valueAt core.head clusterNodesKey (keys.listingPath [.key ADDRS]).segments with
  | some (.array listed) => pure (transportEdits listed wanted)
  | _ => pure none

variable [AddrText] [Encoding]

/-- The run that takes the transports listed for this node to those of `addr`. -/
def advertiseBatch (addr : EndpointAddr) : Res Error (List Envelope) := do
  let wanted := addr.addrs.map TransportAddr.toValue
  let whole ← Res.ofExcept .wire (keys.signUpdates core.head [.transports wanted])
  let edits ← core.listedEdits keys wanted
  match edits.filter fun edits => !edits.isEmpty with
  | none => pure whole
  | some edits => do
    let edited ← Res.ofExcept .wire (keys.signUpdates core.head edits)
    let editedBytes ← Res.ofExcept .wire (batchBytes edited)
    let wholeBytes ← Res.ofExcept .wire (batchBytes whole)
    pure (if editedBytes < wholeBytes then edited else whole)

variable [DecidableEq Externals.EndpointId] [DecidableEq TransportAddr]

/-- The run `advertise` builds, or what it answers where there is none to build. -/
def advertiseRun (addr : EndpointAddr) : Res Error (Advertised ⊕ List Envelope) := do
  let listed ← core.peerAddresses
  match listed[keys.keyId]? with
  | none => pure (.inl .notListed)
  | some current =>
    if current.Same addr then pure (.inl .unchanged)
    else if current.id ≠ addr.id then pure (.inl (.otherEndpoint current.id))
    else do
      match ← core.signsAlone keys.keyId with
      | .error reason => pure (.inl (.cannotSign reason))
      | .ok () => do
        let batch ← core.advertiseBatch keys addr
        pure (.inr batch)

/-- Brings this node's own listing in line with `addr` (`Core::advertise`). -/
def advertise (addr : EndpointAddr) : Res Error Advertised × Core :=
  match core.advertiseRun keys addr with
  | .error e => (.error e, core)
  | .ok (.inl answer) => (.ok answer, core)
  | .ok (.inr batch) =>
    let written : Res Error EnvelopeDigest := do
      let last ← Res.expect batch.getLast? "a run carries the whole write at the least"
      Res.ofExcept .wire last.digest
    match written with
    | .error e => (.error e, core)
    | .ok digest =>
      let (outcome, core) := core.insert batch
      (outcome.map fun _ => .written digest, core)

end Core

/-! ## The edits -/

/-- What an update makes of the transports listed, if its index is one. -/
def Update.apply (listed : List Value) : Update → Option (List Value)
  | .transports entries => some entries
  | .replace index entry => if index.toNat < listed.length then some (listed.set index.toNat entry) else none
  | .drop index => if index.toNat < listed.length then some (listed.eraseIdx index.toNat) else none
  | .append entry => some (listed ++ [entry])

/-- The update an edit by index is. -/
def Update.ofEdit : Edits.Edit Value → Update
  | .append entry => .append entry
  | .replace index entry => .replace (UInt32.ofNat index) entry
  | .drop index => .drop (UInt32.ofNat index)

section Edits

omit [Externals]

variable {listed wanted : List Value} {updates : List Update}

theorem u32TryFromIndex_eq_some {index : Nat} {n : UInt32} (h : u32TryFromIndex index = some n) :
    index < 2 ^ 32 ∧ n = UInt32.ofNat index := by
  unfold u32TryFromIndex at h
  split at h
  · rename_i hlt
    exact ⟨hlt, (Option.some.inj h).symm⟩
  · cases h

theorem mapM_u32TryFromIndex : ∀ {indices : List Nat} {ns : List UInt32}, indices.mapM u32TryFromIndex = some ns →
    ns = indices.map UInt32.ofNat ∧ ∀ i ∈ indices, i < 2 ^ 32
  | [], ns, h => by
    cases h
    exact ⟨rfl, nofun⟩
  | i :: indices, ns, h => by
    rw [List.mapM_cons] at h
    obtain ⟨n, hn, h⟩ := Option.bind_eq_some_iff.1 h
    obtain ⟨rest, hrest, h⟩ := Option.bind_eq_some_iff.1 h
    cases h
    obtain ⟨hlt, rfl⟩ := u32TryFromIndex_eq_some hn
    obtain ⟨rfl, hall⟩ := mapM_u32TryFromIndex hrest
    exact ⟨rfl, List.forall_mem_cons.2 ⟨hlt, hall⟩⟩

/-- Short indices are all ones an update can carry. -/
theorem isSome_transportEdits (h : listed.length ≤ 2 ^ 32) : (transportEdits listed wanted).isSome = true := by
  have hall : ∀ indices : List Nat, (∀ i ∈ indices, i < 2 ^ 32) →
      indices.mapM u32TryFromIndex = some (indices.map UInt32.ofNat) := by
    intro indices hindices
    induction indices with
    | nil => rfl
    | cons i indices ih =>
      obtain ⟨hlt, hrest⟩ := List.forall_mem_cons.1 hindices
      rw [List.mapM_cons, u32TryFromIndex, if_pos hlt, ih hrest]
      rfl
  have hspare : ∀ i ∈ Edits.spareFrom wanted 0 [] listed, i < 2 ^ 32 := by
    intro i hi
    have := (Edits.spareFrom_bounds i hi).2
    omega
  unfold transportEdits
  rw [hall _ hspare]
  rfl

/-- The edits are those of the list, each with an index that fits. -/
theorem transportEdits_eq_some (h : transportEdits listed wanted = some updates) :
    updates = (Edits.edits listed wanted).map .ofEdit ∧ ∀ i ∈ Edits.spareFrom wanted 0 [] listed, i < 2 ^ 32 := by
  unfold transportEdits at h
  obtain ⟨spare, hspare, h⟩ := Option.bind_eq_some_iff.1 h
  cases h
  obtain ⟨rfl, hall⟩ := mapM_u32TryFromIndex hspare
  refine ⟨?_, hall⟩
  unfold Edits.edits
  simp only [List.map_append, List.map_map, List.length_map, ← List.map_take, ← List.map_drop, ← List.map_reverse,
    List.zip_map_left]
  rfl

/-- Applied in order the edits keep every index valid, list on the way all that was listed and is
wanted, and end with what is wanted. -/
theorem run_transportEdits (hwanted : wanted.Nodup) (h : transportEdits listed wanted = some updates) : ∃ through last,
    Edits.Run Update.apply listed updates through last ∧ (∀ l ∈ through, ∀ entry ∈ listed, entry ∈ wanted → entry ∈ l) ∧
      last.Perm wanted := by
  obtain ⟨rfl, hfits⟩ := transportEdits_eq_some h
  obtain ⟨through, last, hrun, hkeeps, hlast⟩ := Edits.run_edits listed hwanted
  refine ⟨through, last, hrun.map fun edit hedit l l' hstep => ?_, hkeeps, hlast⟩
  have hsame : ∀ i, edit.index = some i → (UInt32.ofNat i).toNat = i := fun i hi =>
    UInt32.toNat_ofNat_of_lt (hfits i (Edits.index_mem_spareFrom hedit hi))
  cases edit with
  | append entry => exact hstep
  | replace i entry =>
    simp only [Update.ofEdit, Update.apply, hsame i rfl]
    exact hstep
  | drop i =>
    simp only [Update.ofEdit, Update.apply, hsame i rfl]
    exact hstep

end Edits

/-! ## A signed run -/

section Run

variable {keys : NodeKeys} {v v' w : Version} {p q : EnvelopeDigest} {u : Update} {us : List Update} {es : List Envelope}

theorem signUpdates_cons_eq_ok (h : keys.signUpdates p (u :: us) = .ok es) : ∃ e d rest,
    keys.sign (Envelope.new (keys.advertiseMsg p u)) = .ok e ∧ e.digest = .ok d ∧ keys.signUpdates d us = .ok rest ∧
      es = e :: rest := by
  unfold NodeKeys.signUpdates at h
  obtain ⟨e, he, h⟩ := except_bind_eq_ok h
  obtain ⟨d, hd, h⟩ := except_bind_eq_ok h
  obtain ⟨rest, hrest, h⟩ := except_bind_eq_ok h
  cases h
  exact ⟨e, d, rest, he, hd, hrest, rfl⟩

theorem prev_of_sign {e : Envelope} (h : keys.sign (Envelope.new (keys.advertiseMsg p u)) = .ok e) : e.prev = some p := by
  obtain ⟨-, -, hpayload, -⟩ := sign_eq_ok h
  unfold Envelope.prev
  rw [hpayload]
  cases u <;> rfl

/-- A run is signed parent first, from the envelope it is to follow. -/
theorem signUpdates_linked : ∀ {us : List Update} {p : EnvelopeDigest} {es : List Envelope}, keys.signUpdates p us = .ok es →
    Linked es ∧ ∀ e ∈ es.head?, e.prev = some p
  | [], p, es, h => by
    cases h
    exact ⟨List.IsChain.nil, nofun⟩
  | u :: us, p, es, h => by
    obtain ⟨e, d, rest, he, hd, hrest, rfl⟩ := signUpdates_cons_eq_ok h
    obtain ⟨hlinked, hfirst⟩ := signUpdates_linked hrest
    refine ⟨?_, fun e' he' => by cases he'; exact prev_of_sign he⟩
    cases rest with
    | nil => exact List.isChain_singleton e
    | cons e' rest => exact List.isChain_cons_cons.2 ⟨⟨d, hd, hfirst e' rfl⟩, hlinked⟩

/-- All a run holds is updates this node signed. -/
theorem signed_of_signUpdates : ∀ {us : List Update} {p : EnvelopeDigest} {es : List Envelope},
    keys.signUpdates p us = .ok es → ∀ e ∈ es, ∃ p u, keys.sign (Envelope.new (keys.advertiseMsg p u)) = .ok e
  | [], p, es, h => by
    cases h
    exact nofun
  | u :: us, p, es, h => by
    obtain ⟨e, d, rest, he, -, hrest, rfl⟩ := signUpdates_cons_eq_ok h
    exact List.forall_mem_cons.2 ⟨⟨p, u, he⟩, signed_of_signUpdates hrest⟩

/-- Where the transports stand in the namespace. -/
def NodeKeys.transportsPath (keys : NodeKeys) : List Subkey := (keys.listingPath [.key ADDRS]).segments

omit [Externals] in
theorem setAt_index_eq_ok {items : List Value} {i : UInt32} {value : Option Value} {y : Value}
    (h : setAt (E := ApplyError) (.array items) ⟨[.index i], List.cons_ne_nil _ _⟩ value = .ok y) :
    i.toNat < items.length ∧ y = putItem items i value := by
  cases value <;>
  · simp only [setAt, List.getLast_singleton, List.dropLast_singleton, walkMut, Res.expect_some, Res.ok_bind] at h
    obtain ⟨item, hitem, h⟩ := Res.bind_eq_ok h
    cases h
    exact ⟨(List.getElem?_eq_some_iff.1 (Res.expect_eq_ok hitem)).1, rfl⟩

/-- The transports listed at a place become what the update makes of them, and nothing else changes. -/
theorem update_advertiseMsg {op : NamespaceOp} {ns : Namespace} {items : List Value} {put : Value → Value}
    (hns : v[clusterNodesKey]? = some ns) (hw : walkMut ns.value keys.transportsPath = some (.array items, put))
    (hop : opOf (keys.advertiseMsg p u) = some op) (hu : op.update (E := ApplyError) v = .ok v') :
    ∃ items', u.apply items = some items' ∧ v' = v.insert clusterNodesKey ⟨put (.array items')⟩ := by
  have hindexed : ∀ (i : UInt32) (value : Option Value) (w : Value),
      setAt (E := ApplyError) ns.value (keys.listingPath [.key ADDRS, .index i]) value = .ok w →
      i.toNat < items.length ∧ w = put (putItem items i value) := by
    intro i value w hset
    have hunder : setAt (E := ApplyError) ns.value (keys.listingPath [.key ADDRS, .index i]) value = (do
        let y ← setAt (.array items) ⟨[.index i], List.cons_ne_nil _ _⟩ value
        pure (put y)) :=
      setAt_under value (List.cons_ne_nil _ _) hw
    rw [hset] at hunder
    obtain ⟨y, hy, hput⟩ := Res.bind_eq_ok hunder.symm
    cases hput
    obtain ⟨hlt, rfl⟩ := setAt_index_eq_ok hy
    exact ⟨hlt, rfl⟩
  cases u with
  | transports entries =>
    cases hop
    obtain ⟨ns', w, hns', hset, rfl⟩ := MemStorage.update_setAt_eq_ok hu
    rw [hns] at hns'
    cases hns'
    have hedit : edit (fun _ => some (.array entries)) keys.transportsPath ns.value = put (.array entries) :=
      edit_of_walkMut rfl hw
    refine ⟨entries, rfl, ?_⟩
    rw [setAt_eq_edit hset]
    exact congrArg (fun x => v.insert clusterNodesKey ⟨x⟩) hedit
  | append entry =>
    cases hop
    obtain ⟨ns', w, hns', hamend, rfl⟩ := MemStorage.update_amendAt_eq_ok hu
    rw [hns] at hns'
    cases hns'
    have hbounded : Bounded (.appendEntry entry) := nofun
    have hedit : edit (amended (.appendEntry entry)) keys.transportsPath ns.value = put (.array (items ++ [entry])) :=
      edit_of_walkMut rfl hw
    refine ⟨items ++ [entry], rfl, ?_⟩
    rw [amendAt_eq_edit hbounded hamend]
    exact congrArg (fun x => v.insert clusterNodesKey ⟨x⟩) hedit
  | replace i entry =>
    cases hop
    obtain ⟨ns', w, hns', hset, rfl⟩ := MemStorage.update_setAt_eq_ok hu
    rw [hns] at hns'
    cases hns'
    obtain ⟨hlt, rfl⟩ := hindexed i _ w hset
    exact ⟨_, if_pos hlt, rfl⟩
  | drop i =>
    cases hop
    obtain ⟨ns', w, hns', hset, rfl⟩ := MemStorage.update_setAt_eq_ok hu
    rw [hns] at hns'
    cases hns'
    obtain ⟨hlt, rfl⟩ := hindexed i _ w hset
    exact ⟨_, if_pos hlt, rfl⟩

omit [Externals] in
theorem insert_insert_version (v : Version) (key : NamespaceKey) (ns ns' : Namespace) :
    (v.insert key ns).insert key ns' = v.insert key ns' := by
  refine ExtTreeMap.ext_getElem? fun k => ?_
  rw [ExtTreeMap.getElem?_insert, ExtTreeMap.getElem?_insert, ExtTreeMap.getElem?_insert]
  split <;> rfl

/-- A run of updates that went in took the transports listed through the update each of them is. -/
theorem landed_updates {put : Value → Value} : ∀ {us : List Update} {u : Update} {p q : EnvelopeDigest} {es : List Envelope}
    {v w : Version} {ns : Namespace} {items : List Value}, keys.signUpdates p (u :: us) = .ok es →
      v[clusterNodesKey]? = some ns → walkMut ns.value keys.transportsPath = some (.array items, put) → Landed v p es w q →
        ∃ through last, Edits.Run Update.apply items (u :: us) through last ∧
          w = v.insert clusterNodesKey ⟨put (.array last)⟩
  | us, u, p, q, es, v, w, ns, items, hsigned, hns, hw, hlanded => by
    obtain ⟨e, d, rest, he, hd, hrest, rfl⟩ := signUpdates_cons_eq_ok hsigned
    obtain ⟨-, -, hpayload, -⟩ := sign_eq_ok he
    cases hlanded with
    | cons prev digest accepts landed =>
      rw [hd] at digest
      cases digest
      obtain ⟨op, hc, hu⟩ := accepts.checked
      have hop := (Ledger.validateMsg_eq_ok (E := Empty) (versions_only _ _) (Ledger.checked_eq_ok hc).2.2.2.1).1
      have hop' : opOf (keys.advertiseMsg p u) = some op := by
        rw [← hpayload]
        exact hop
      rw [prev_of_sign he] at prev
      cases prev
      obtain ⟨items', happly, rfl⟩ := update_advertiseMsg hns hw hop' hu
      cases us with
      | nil =>
        cases hrest
        cases landed
        exact ⟨_, items', .cons happly (.nil _), rfl⟩
      | cons u' us =>
        obtain ⟨through, last, hrun, rfl⟩ := landed_updates hrest ExtTreeMap.getElem?_insert_self (walkMut_put hw _) landed
        exact ⟨_, last, .cons happly hrun, insert_insert_version _ _ _ _⟩

end Run

/-! ## What is read back -/

section Texts

variable [AddrText]

/-- The texts iroh prints its transports as read back as what was printed. -/
structure RoundTrips : Prop where
  relay : ∀ url, Externals.parseRelay (AddrText.printRelay url) = some url
  ip : ∀ socket, Externals.parseIp (AddrText.printIp socket) = some socket
  custom : ∀ name, Externals.parseCustom (AddrText.printCustom name) = some name

variable (texts : RoundTrips)

include texts

theorem tryFrom_toValue (addr : TransportAddr) : TransportAddr.tryFrom addr.toValue = .ok addr := by
  have htype : ∀ kind text : String,
      stringField (Entries.insert (Entries.insert [] "type" (.string kind)) "addr" (.string text)) "type" = pure kind := by
    intro kind text
    unfold stringField
    rw [Entries.get_insert, if_neg (by decide), Entries.get_insert, if_pos rfl]
  have haddr : ∀ kind text : String,
      stringField (Entries.insert (Entries.insert [] "type" (.string kind)) "addr" (.string text)) "addr" = pure text := by
    intro kind text
    unfold stringField
    rw [Entries.get_insert, if_pos rfl]
  cases addr with
  | relay url =>
    simp [TransportAddr.toValue, TransportAddr.tryFrom, htype, haddr, texts.relay]
    rfl
  | ip socket =>
    simp [TransportAddr.toValue, TransportAddr.tryFrom, htype, haddr, texts.ip]
    rfl
  | custom name =>
    simp [TransportAddr.toValue, TransportAddr.tryFrom, htype, haddr, texts.custom]
    rfl

theorem toValue_injective : Function.Injective (TransportAddr.toValue) := by
  intro a b h
  have ha := tryFrom_toValue texts a
  rw [h, tryFrom_toValue texts b] at ha
  exact (Except.ok.inj ha).symm

/-- An array of the entries of an address, in whatever order, is read as its transports. -/
theorem reads_of_perm {items : List Value} {addrs : List TransportAddr} (h : items.Perm (addrs.map TransportAddr.toValue)) :
    (∀ entry ∈ items, Usable entry) ∧ ∀ addr, addr ∈ transportsOf items ↔ addr ∈ addrs := by
  refine ⟨fun entry hentry e he => ?_, fun addr => ?_⟩
  · obtain ⟨addr, -, rfl⟩ := List.mem_map.1 (h.mem_iff.1 hentry)
    rw [tryFrom_toValue texts] at he
    cases he
  · unfold transportsOf
    rw [List.mem_filterMap]
    constructor
    · rintro ⟨entry, hentry, hparse⟩
      obtain ⟨addr', hmem, rfl⟩ := List.mem_map.1 (h.mem_iff.1 hentry)
      rw [tryFrom_toValue texts] at hparse
      cases hparse
      exact hmem
    · intro hmem
      exact ⟨_, h.mem_iff.2 (List.mem_map_of_mem hmem), by rw [tryFrom_toValue texts]; rfl⟩

end Texts

/-! ## What was written -/

section Written

variable [AddrText] [Encoding] {core core' : Core} {keys : NodeKeys} {addr : EndpointAddr} {batch : List Envelope}

/-- The run that is built is the whole write, or edits of what is listed. -/
theorem advertiseBatch_cases (h : core.advertiseBatch keys addr = .ok batch) : ∃ u us,
    keys.signUpdates core.head (u :: us) = .ok batch ∧
      (u = .transports (addr.addrs.map TransportAddr.toValue) ∧ us = [] ∨
        core.listedEdits keys (addr.addrs.map TransportAddr.toValue) = .ok (some (u :: us))) := by
  unfold Core.advertiseBatch at h
  obtain ⟨whole, hsigned, h⟩ := Res.bind_eq_ok h
  have hsigned := Res.ofExcept_eq_ok hsigned
  obtain ⟨edits, hedits, h⟩ := Res.bind_eq_ok h
  split at h
  · cases h
    exact ⟨_, [], hsigned, .inl ⟨rfl, rfl⟩⟩
  · rename_i updates hupdates
    obtain ⟨rfl, hnonempty⟩ := Option.filter_eq_some_iff.1 hupdates
    obtain ⟨edited, hedited, h⟩ := Res.bind_eq_ok h
    obtain ⟨editedBytes, -, h⟩ := Res.bind_eq_ok h
    obtain ⟨wholeBytes, -, h⟩ := Res.bind_eq_ok h
    cases h
    split
    · cases updates with
      | nil => cases hnonempty
      | cons u us => exact ⟨u, us, Res.ofExcept_eq_ok hedited, .inr hedits⟩
    · exact ⟨_, [], hsigned, .inl ⟨rfl, rfl⟩⟩

/-- One way or the other it updates the transports listed to those of the address. -/
theorem advertiseBatch_eq_ok {v : Version} {ns : Namespace} {items : List Value}
    (hwanted : (addr.addrs.map TransportAddr.toValue).Nodup) (hv : core.storage.versions[core.head]? = some v)
    (hns : v[clusterNodesKey]? = some ns) (hw : ns.value.walk keys.transportsPath = some (.array items))
    (h : core.advertiseBatch keys addr = .ok batch) : ∃ u us, keys.signUpdates core.head (u :: us) = .ok batch ∧
      ∀ through last, Edits.Run Update.apply items (u :: us) through last →
        last.Perm (addr.addrs.map TransportAddr.toValue) := by
  obtain ⟨u, us, hsigned, ⟨rfl, rfl⟩ | hedits⟩ := advertiseBatch_cases h
  · refine ⟨_, _, hsigned, fun through last hrun => ?_⟩
    cases hrun with
    | cons step rest =>
      cases step
      cases rest
      exact List.Perm.refl _
  · have hvalue : core.storage.valueAt (E := Error) core.head clusterNodesKey (keys.listingPath [.key ADDRS]).segments =
        .ok (some (.array items)) := by
      simp only [MemStorage.valueAt, core.storage.version_eq_ok hv, Res.ok_bind, hns, Option.bind_some]
      exact congrArg Except.ok hw
    unfold Core.listedEdits at hedits
    rw [hvalue] at hedits
    refine ⟨u, us, hsigned, fun through last hrun => ?_⟩
    obtain ⟨through', last', hrun', -, hperm⟩ := run_transportEdits hwanted (Except.ok.inj hedits)
    rw [(hrun.unique hrun').1]
    exact hperm

variable [DecidableEq Externals.EndpointId] [DecidableEq TransportAddr]

/-- A run is built only for a stale listing of this endpoint, where this node signs alone. -/
theorem advertiseRun_eq_built (h : core.advertiseRun keys addr = .ok (.inr batch)) : ∃ listed current,
    core.peerAddresses = .ok listed ∧ listed[keys.keyId]? = some current ∧ ¬ current.Same addr ∧ current.id = addr.id ∧
      core.signsAlone keys.keyId = .ok (.ok ()) ∧ core.advertiseBatch keys addr = .ok batch := by
  unfold Core.advertiseRun at h
  obtain ⟨listed, hlisted, h⟩ := Res.bind_eq_ok h
  split at h
  · cases h
  rename_i current hcurrent
  split at h
  · cases h
  rename_i hstale
  split at h
  · cases h
  rename_i hid
  obtain ⟨alone, halone, h⟩ := Res.bind_eq_ok h
  split at h
  · cases h
  obtain ⟨batch', hbatch, h⟩ := Res.bind_eq_ok h
  cases h
  exact ⟨listed, current, hlisted, hcurrent, hstale, not_not.1 hid, halone, hbatch⟩

/-- Nothing is written without a run. -/
theorem advertiseRun_ne_written (d : EnvelopeDigest) : core.advertiseRun keys addr ≠ .ok (.inl (.written d)) := by
  intro h
  unfold Core.advertiseRun at h
  obtain ⟨listed, -, h⟩ := Res.bind_eq_ok h
  split at h
  · cases h
  split at h
  · cases h
  split at h
  · cases h
  obtain ⟨alone, -, h⟩ := Res.bind_eq_ok h
  split at h
  · cases h
  obtain ⟨batch, -, h⟩ := Res.bind_eq_ok h
  cases h

/-- What was written is the run that was built, which all went in. -/
theorem advertise_eq_written {d : EnvelopeDigest} (h : core.advertise keys addr = (.ok (.written d), core')) :
    ∃ batch last i, core.advertiseRun keys addr = .ok (.inr batch) ∧ batch.getLast? = some last ∧ last.digest = .ok d ∧
      core.insert batch = (.ok i, core') := by
  unfold Core.advertise at h
  split at h
  · cases h
  · rename_i answer hrun
    cases h
    exact absurd hrun (advertiseRun_ne_written d)
  · rename_i batch hrun
    dsimp only at h
    split at h
    · cases h
    · rename_i digest hdigest
      obtain ⟨last, hlast, hdigest⟩ := Res.bind_eq_ok hdigest
      rcases hins : core.insert batch with ⟨outcome, after⟩
      rw [hins] at h
      cases outcome with
      | error e => cases h
      | ok i =>
        cases h
        exact ⟨batch, last, i, hrun, Res.expect_eq_ok hlast, Res.ofExcept_eq_ok hdigest, hins⟩

/-- This node is listed at `addr`, and beside the transports of its listing everything reads as it did. -/
structure Readdressed (keys : NodeKeys) (addr : EndpointAddr) (before after : Core) : Prop where
  addresses : ∃ listed listed', before.peerAddresses = .ok listed ∧ after.peerAddresses = .ok listed' ∧
    (∃ addr', listed'[keys.keyId]? = some addr' ∧ addr'.Same addr) ∧ ∀ id, id ≠ keys.keyId → listed'[id]? = listed[id]?
  states : ∃ v v', before.storage.versions[before.head]? = some v ∧ after.storage.versions[after.head]? = some v' ∧
    (∀ key, key ≠ clusterNodesKey → v'[key]? = v[key]?) ∧
    ∀ path, ¬ Comparable keys.transportsPath path →
      (v'[clusterNodesKey]?.bind fun ns => ns.value.walk path) = v[clusterNodesKey]?.bind fun ns => ns.value.walk path

omit [AddrText] [Encoding] [DecidableEq Externals.EndpointId] [DecidableEq TransportAddr] in
theorem peerAddresses_iff {v : Version} {ns : Namespace} {nodes : ExtTreeMap KeyId EndpointAddr}
    (hv : core.storage.versions[core.head]? = some v) (hns : v[clusterNodesKey]? = some ns) :
    core.peerAddresses = .ok nodes ↔ parseClusterNodes ns.value = .ok nodes := by
  unfold Core.peerAddresses Ledger.peerAddresses
  rw [Ledger.nsAt_eq_ok hv, Res.ok_bind, hns]
  constructor
  · intro h
    exact Res.ofExcept_eq_ok (Res.mapErr_eq_ok h)
  · intro h
    simp only [h]
    rfl

omit [AddrText] [Encoding] [DecidableEq Externals.EndpointId] [DecidableEq TransportAddr] in
theorem nodes_of_peerAddresses {v : Version} {nodes : ExtTreeMap KeyId EndpointAddr}
    (hv : core.storage.versions[core.head]? = some v) {id : KeyId} {current : EndpointAddr}
    (h : core.peerAddresses = .ok nodes) (hid : nodes[id]? = some current) :
    ∃ entries, v[clusterNodesKey]? = some ⟨.map entries⟩ ∧ parseClusterNodes (.map entries) = .ok nodes := by
  cases hns : v[clusterNodesKey]? with
  | none =>
    unfold Core.peerAddresses Ledger.peerAddresses at h
    rw [Ledger.nsAt_eq_ok hv, Res.ok_bind, hns] at h
    cases h
    simp at hid
  | some ns =>
    have hparse := (peerAddresses_iff hv hns).1 h
    obtain ⟨value⟩ := ns
    cases value with
    | map entries => exact ⟨entries, rfl, hparse⟩
    | _ => cases hparse

/-- An advertisement that was written leaves this node listed at the address, and nothing else changed. -/
theorem Core.advertise_written {W : World} (hgood : Good W core.chain core.storage) (texts : RoundTrips)
    (hsigned : ∀ e signed, keys.sign e = .ok signed → signed.toSignedPortion ∈ W.contents)
    (hordered : ∀ v ns, core.storage.versions[core.head]? = some v → v[clusterNodesKey]? = some ns → Ordered ns.value)
    (hdistinct : addr.addrs.Nodup) {d : EnvelopeDigest} (h : core.advertise keys addr = (.ok (.written d), core')) :
    Readdressed keys addr core core' ∧ core'.head = d := by
  obtain ⟨batch, last, i, hrun, hlast, hd, hins⟩ := advertise_eq_written h
  obtain ⟨listed, current, hlisted, hcurrent, -, hid, -, hbatch⟩ := advertiseRun_eq_built hrun
  obtain ⟨v, hv⟩ : ∃ v, core.storage.versions[core.head]? = some v := hgood.pathHeld _ hgood.tip.canonical
  obtain ⟨entries, hns, hparse⟩ := nodes_of_peerAddresses hv hlisted hcurrent
  have hsorted : Entries.Sorted entries := by
    have hmap := hordered v _ hv hns
    unfold Ordered at hmap
    exact hmap.1
  obtain ⟨inner, fields, text, items, hhex, hinner, hfields, htext, hz32, hitems⟩ := listing_of_node hsorted hparse hcurrent
  -- where the transports stand, and how they are written back
  have hw : walkMut (.map entries) keys.transportsPath = some (.array items, fun x =>
      .map (Entries.insert entries (Externals.keyIdToHex keys.keyId)
        (.map (Entries.insert inner "iroh" (.map (Entries.insert fields ADDRS x)))))) := by
    have hitems' : Entries.get fields ADDRS = some (.array items) := hitems
    simp only [NodeKeys.transportsPath, NodeKeys.listingPath, List.cons_append, List.nil_append, walkMut, hinner, hfields,
      hitems', Option.bind_some, Option.map_some]
    rfl
  have hwalk := walk_of_walkMut hw
  have hwanted : (addr.addrs.map TransportAddr.toValue).Nodup := hdistinct.map (toValue_injective texts)
  obtain ⟨u, us, hupdates, hruns⟩ := advertiseBatch_eq_ok hwanted hv hns hwalk hbatch
  obtain ⟨hlinked, hfirst⟩ := signUpdates_linked hupdates
  have content : ∀ e ∈ batch, e.toSignedPortion ∈ W.contents := fun e he => by
    obtain ⟨_, _, hsign⟩ := signed_of_signUpdates hupdates e he
    exact hsigned _ _ hsign
  obtain ⟨r, chain', t, hinsert, heach, -, -⟩ := hgood.insertBatch_each hlinked content
  have hins' := Core.insert_eq_ok hins
  rw [hinsert] at hins'
  obtain ⟨rfl, rfl, rfl⟩ : r = .ok i ∧ chain' = core'.chain ∧ t = core'.storage := by
    cases hins'
    exact ⟨rfl, rfl, rfl⟩
  obtain ⟨w, hlanded, hw', hgood'⟩ := hgood.insertEach_landed hlinked hfirst content hv heach
  obtain ⟨through, items', hupdated, rfl⟩ := landed_updates hupdates hns hw hlanded
  have hperm := hruns through items' hupdated
  obtain ⟨husable, htransports⟩ := reads_of_perm texts hperm
  have hruled : Ruled _ := (hgood'.coherent.versions _ _ hw').2.ruled
  have hhead : core'.storage.versions[core'.chain.ledger.head]? = some _ := hw'
  obtain ⟨listed', hlisted'⟩ := Ledger.peerAddresses_of_ruled hhead hruled
  have hlisted' : core'.peerAddresses = .ok listed' := by
    unfold Core.peerAddresses
    rw [hlisted']
    rfl
  have hparse' := (peerAddresses_iff hw' ExtTreeMap.getElem?_insert_self).1 hlisted'
  obtain ⟨hown, hothers⟩ := getElem?_relisted hsorted hparse hhex htext hz32 husable hparse'
  refine ⟨⟨⟨listed, listed', hlisted, hlisted', ⟨_, hown, hid, ?_, ?_⟩, hothers⟩, v, _, hv, hw', ?_, ?_⟩, ?_⟩
  · exact fun addr' hmem => (htransports addr').1 hmem
  · exact fun addr' hmem => (htransports addr').2 hmem
  · exact fun key hne => Ledger.getElem?_insert_of_ne hne.symm _ _
  · intro path hpath
    rw [ExtTreeMap.getElem?_insert_self, hns, Option.bind_some, Option.bind_some]
    refine @walk_put_of_not_comparable [] _ _ _ _ _ hw (fun q hq => absurd (comparable_nil q) hq) path ?_
    rw [List.append_nil]
    exact hpath
  · have hlast' := hlanded.last hlast
    rw [hd] at hlast'
    exact (Except.ok.inj hlast').symm

/-- Advertising converges by either route. Whatever is listed, the edits find their indices, never list
less of what is wanted than was listed, and end with the transports the whole write lists; and an
advertisement that was written leaves this node listed at the address and nothing else changed. -/
theorem Core.advertise_converges {contents : Set SignedPortion} (laws : DigestLaws contents) (texts : RoundTrips)
    (reachable : Reachable contents core.chain core.storage)
    (signed : ∀ e signed, keys.sign e = .ok signed → signed.toSignedPortion ∈ contents)
    (ordered : ∀ v ns, core.storage.versions[core.head]? = some v → v[clusterNodesKey]? = some ns → Ordered ns.value)
    (distinct : addr.addrs.Nodup) :
    (∀ listed wanted : List Value, wanted.Nodup →
      (listed.length ≤ 2 ^ 32 → (transportEdits listed wanted).isSome = true) ∧
      ∀ updates, transportEdits listed wanted = some updates → ∃ through last,
        Edits.Run Update.apply listed updates through last ∧
          (∀ l ∈ through, ∀ entry ∈ listed, entry ∈ wanted → entry ∈ l) ∧ last.Perm wanted ∧
          ∀ whole, Update.apply listed (.transports wanted) = some whole → ∀ entry, entry ∈ last ↔ entry ∈ whole) ∧
    ∀ d core', core.advertise keys addr = (.ok (.written d), core') → Readdressed keys addr core core' ∧ core'.head = d := by
  refine ⟨fun listed wanted hwanted => ⟨isSome_transportEdits, fun updates hupdates => ?_⟩, fun d core' h => ?_⟩
  · obtain ⟨through, last, hrun, hkeeps, hperm⟩ := run_transportEdits hwanted hupdates
    refine ⟨through, last, hrun, hkeeps, hperm, fun whole hwhole entry => ?_⟩
    cases hwhole
    exact hperm.mem_iff
  · obtain ⟨W, rfl, hgood⟩ := reachable.good laws
    exact Core.advertise_written hgood texts signed ordered distinct h

end Written

end IrohLotus.Lotusd

/-! ## The samples -/

namespace IrohLotus.Lotusd

open Std Outcome IrohLotus.Wire IrohLotus.Wire.Founded IrohLotus.Storage IrohLotus.State

theorem founded_texts : RoundTrips where
  relay url := nomatch url
  ip _ := rfl
  custom name := nomatch name

theorem ordered_transports : ∀ sockets : List String, OrderedItems (sockets.map transport)
  | [] => trivial
  | socket :: sockets => by
    have hfields : "addr" < "type" := by decide +kernel
    exact ⟨⟨List.pairwise_pair.2 hfields, trivial, trivial, trivial⟩, ordered_transports sockets⟩

/-- One node's listing is in order wherever it is reachable. -/
theorem ordered_listing (name z32 : String) (sockets : List String) : Ordered (.map [(name, .map [("iroh",
    .map [("addrs", .array (sockets.map transport)), ("endpoint_id", .string z32)])])]) := by
  have hfields : "addrs" < "endpoint_id" := by decide +kernel
  have hlisted : Ordered (.map [("addrs", .array (sockets.map transport)), ("endpoint_id", .string z32)]) :=
    ⟨List.pairwise_pair.2 hfields, ordered_transports sockets, trivial, trivial⟩
  exact ⟨List.pairwise_singleton _ _, ⟨List.pairwise_singleton _ _, hlisted, trivial⟩, trivial⟩

theorem ordered_foundedState : ∀ ns, foundedState[clusterNodesKey]? = some ns → Ordered ns.value := by
  intro ns hns
  have hnodes : foundedState[clusterNodesKey]? = some ⟨.map [(founderName, unreachable founderZ32)]⟩ := by decide +kernel
  rw [hnodes] at hns
  cases hns
  exact ordered_listing founderName founderZ32 []

/-- The digest of the last envelope, where the listing was written. -/
def Advertised.digest [Externals] : Advertised → Option EnvelopeDigest
  | .written digest => some digest
  | _ => none

/-- The founder's core once its listing names one socket twice. -/
def doubledCore : Core := (foundedCore.insert [doubled]).2

theorem reachable_doubledCore : Reachable Set.univ doubledCore.chain doubledCore.storage := by
  rw [doubledCore]
  exact Core.insert_reachable reachable_foundedCore fun _ _ => Set.mem_univ _

theorem ordered_doubledCore : ∀ v ns, doubledCore.storage.versions[doubledCore.head]? = some v →
    v[clusterNodesKey]? = some ns → Ordered ns.value := by
  intro v ns hv hns
  have hnodes : (doubledCore.storage.versions[doubledCore.head]?.bind fun v => v[clusterNodesKey]?) =
      some ⟨.map [(founderName, .map [("iroh", .map [("addrs", .array [transport "192.0.2.1:4433",
        transport "192.0.2.1:4433"]), ("endpoint_id", .string founderZ32)])])]⟩ := by
    decide +kernel
  rw [hv, Option.bind_some, hns] at hnodes
  cases hnodes
  exact ordered_listing founderName founderZ32 ["192.0.2.1:4433", "192.0.2.1:4433"]

/-- Where it is reachable at that socket and at another. -/
def founderAddr : EndpointAddr := ⟨founderEndpoint, [.ip "192.0.2.1:4433", .ip "192.0.2.2:4433"]⟩

/-- What it is left with when it advertises that. -/
def readvertised : Res Error Advertised × Core := doubledCore.advertise founderKeys founderAddr

/-- One edit puts the other socket where the first stood twice; where a stale one is listed as well, it is
replaced and the second of the two dropped. -/
theorem readdressed_readvertised : readvertised.1 = .ok (.written replacedDigest) ∧
    Readdressed founderKeys founderAddr doubledCore readvertised.2 ∧
    ∃ through last, Edits.Run Update.apply
        [transport "192.0.2.3:4433", transport "192.0.2.1:4433", transport "192.0.2.1:4433"]
        [.replace 0 (transport "192.0.2.2:4433"), .drop 2] through last ∧
      last.Perm [transport "192.0.2.1:4433", transport "192.0.2.2:4433"] := by
  have hdigest : (readvertised.1.toOption.bind Advertised.digest) = some replacedDigest := by decide +kernel
  have hwritten : readvertised.1 = .ok (.written replacedDigest) := by
    obtain ⟨answer, hanswer, hdigest⟩ := Option.bind_eq_some_iff.1 hdigest
    cases answer <;> cases hdigest
    exact except_of_toOption_some hanswer
  have hrun : doubledCore.advertise founderKeys founderAddr = (.ok (.written replacedDigest), readvertised.2) :=
    Prod.ext hwritten (by rw [readvertised])
  have hdistinct : founderAddr.addrs.Nodup := by decide +kernel
  obtain ⟨hedits, hconverges⟩ := @Core.advertise_converges _ _ _ doubledCore founderKeys founderAddr
    _ _ _ founded_laws founded_texts reachable_doubledCore (fun _ _ _ => Set.mem_univ _) ordered_doubledCore hdistinct
  have hupdates : transportEdits [transport "192.0.2.3:4433", transport "192.0.2.1:4433", transport "192.0.2.1:4433"]
      [transport "192.0.2.1:4433", transport "192.0.2.2:4433"] =
        some [.replace 0 (transport "192.0.2.2:4433"), .drop 2] := by
    decide +kernel
  obtain ⟨through, last, hsteps, -, hperm, -⟩ := (hedits _ _ (by decide +kernel)).2 _ hupdates
  exact ⟨hwritten, (hconverges _ _ hrun).1, through, last, hsteps, hperm⟩

end IrohLotus.Lotusd
