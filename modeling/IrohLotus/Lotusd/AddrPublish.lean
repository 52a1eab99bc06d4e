/-
The address-publishing actor beside the core it writes to (`lotusd::addr_publish`): a wake, whether the
endpoint's address moved or the ledger did, arms a timer; the timer sends the address of that moment to
the mainloop, one trip at a time; and the mainloop lists it where what is listed is stale. However all of
this interleaves, when the actor comes to rest its state tells where this node's listing stands.
-/
import IrohLotus.Lib.Reread
import IrohLotus.Lotusd.Advertise
import IrohLotus.Lotusd.Owed
import IrohLotus.Lotusd.WeakWrite

namespace IrohLotus.State

open Std Outcome IrohLotus.Wire IrohLotus.Storage

/-! ## An entry of a namespace -/

/-- The entry a namespace holds under a name changes only where a message writes at it: entries of arrays
move only below. -/
theorem framed_entry (k : NamespaceKey) (name : String) :
    Framed (fun v => entryAt v k ⟨[.key name], List.cons_ne_nil _ _⟩) k (some ⟨[.key name], List.cons_ne_nil _ _⟩) := by
  intro msg op w v hop hu hk
  by_cases hshift : shifts w msg = true
  · -- only a clear moves entries, and those it moves stand in an array
    obtain ⟨prev, key, path, hmsg⟩ : ∃ prev key path, msg = .setNamespaceKey ⟨prev, key, path, none⟩ := by
      unfold shifts at hshift
      split at hshift
      · exact ⟨_, _, _, rfl⟩
      · cases hshift
    subst hmsg
    cases hop
    obtain ⟨ns, u, hget, hset, rfl⟩ := MemStorage.update_setAt_eq_ok hu
    by_cases hkey : key = k
    · subst hkey
      have hget' : w[key]? = some ns := hget
      have hq : ¬ Comparable path.segments [.key name] := fun h => hk ⟨rfl, h⟩
      rcases walk_setAt_cases hset hq with hsame | ⟨-, parents, items, i, j, rest, -, hsplit, -⟩
      · simpa [entryAt, hget'] using hsame
      · cases parents with
        | nil => cases hsplit
        | cons x parents => simp at hsplit
    · simp [entryAt, ExtTreeMap.getElem?_insert, hkey]
  · exact entryAt_of_not_writes hop hu (Bool.eq_false_iff.2 hshift) hk

end IrohLotus.State

namespace IrohLotus.Lotusd

open Std Outcome IrohLotus.Wire IrohLotus.Storage IrohLotus.State

/-! ## Advertising on the mainloop -/

variable [Externals]

/-- The core of a system, wherever its oldest-envelope file points. -/
def System.core (σ : System) : Core := ⟨σ.chain, σ.store, σ.chain.root⟩

omit [Externals] in
theorem System.core_inj {σ σ' : System} (h : σ.core = σ'.core) : σ.chain = σ'.chain ∧ σ.store = σ'.store :=
  ⟨congrArg Core.chain h, congrArg Core.storage h⟩

variable [AddrText] [Encoding] [DecidableEq Externals.EndpointId] [DecidableEq TransportAddr]

/-- What names a run once written: the digest of its last envelope. -/
def lastDigest (batch : List Envelope) : Res Error EnvelopeDigest := do
  let last ← Res.expect batch.getLast? "a run carries the whole write at the least"
  Res.ofExcept .wire last.digest

/-- `Core::advertise` on the mainloop: what it answers, and the system with what it inserted. -/
def System.advertise (keys : NodeKeys) (σ : System) (addr : EndpointAddr) : Res Error Advertised × System :=
  match σ.core.advertiseRun keys addr with
  | .error e => (.error e, σ)
  | .ok (.inl answer) => (.ok answer, σ)
  | .ok (.inr batch) =>
    match lastDigest batch with
    | .error e => (.error e, σ)
    | .ok digest => ((Lotusd.insert σ.chain σ.store batch).outcome.map fun _ => .written digest, σ.insert batch)

end IrohLotus.Lotusd

namespace IrohLotus.Lotusd.AddrPublish

open Std Outcome Reread IrohLotus.Wire IrohLotus.Storage IrohLotus.State

variable [Externals]

/-! ## Where a listing stands -/

/-- Where this node's listing stands, as far as the actor knows. -/
inductive PublishState where
  | unchecked
  | published
  | pending
  | notListed
  | otherEndpoint (id : Externals.EndpointId)
  | cannotSign (reason : Core.CannotSignAlone)
  | failed (e : Halt Error)

/-- What a publish outcome leaves the state at. -/
def settleOutcome : Res Error Advertised → PublishState
  | .ok .unchanged => .published
  | .ok (.written _) => .published
  | .ok .notListed => .notListed
  | .ok (.otherEndpoint id) => .otherEndpoint id
  | .ok (.cannotSign reason) => .cannotSign reason
  | .error e => .failed e

/-- What a settled state says of the listing and the endpoint's address. -/
def PublishState.Says (listed : Option EndpointAddr) (addr : EndpointAddr) : PublishState → Prop
  | .unchecked | .pending => False
  | .published => ∃ current, listed = some current ∧ current.Same addr
  | .notListed => listed = none
  | .otherEndpoint id => ∃ current, listed = some current ∧ current.id = id ∧ id ≠ addr.id
  | .cannotSign _ | .failed _ => ∃ current, listed = some current ∧ ¬ current.Same addr ∧ current.id = addr.id

/-! ## The actor -/

/-- Coalesces trips to the mainloop: one in flight at a time, and one more owed only meanwhile. -/
structure Publish where
  inFlight : Bool
  again : Bool
  owed : again = true → inFlight = true

namespace Publish

omit [Externals] in
theorem owed_idle : false = true → false = true := id

omit [Externals] in
theorem owed_again : true = true → true = true := id

omit [Externals] in
theorem owed_started (publish : Publish) : publish.again = true → true = true := fun _ => rfl

def default : Publish := ⟨false, false, owed_idle⟩

/-- Starts a trip, or notes that another is wanted once the current one lands. -/
def request (publish : Publish) : Publish × Bool :=
  if publish.inFlight then (⟨true, true, owed_again⟩, false) else (⟨true, publish.again, owed_started publish⟩, true)

/-- The trip landed; whether another was waiting on it. -/
def landed (publish : Publish) : Publish × Bool := (default, publish.again)

end Publish

/-- A trip to the mainloop with an address, or back with what came of it. -/
inductive Trip where
  | out (addr : EndpointAddr)
  | back (outcome : Res Error Advertised)

/-- The actor beside its core and its endpoint: the subscription it opened, the address the endpoint is
reachable at and whether it saw it move there, its timer, its trips and its state. -/
structure Actor where
  system : System
  ledger : Nat
  addr : EndpointAddr
  seen : Bool
  armed : Bool
  publish : Publish
  trips : List Trip
  state : PublishState

/-- The path of a node's own listing. -/
def ownPath (node : KeyId) : SubkeyPath := ⟨[.key (Externals.keyIdToHex node)], List.cons_ne_nil _ _⟩

/-- What wakes the actor: this node's own listing, and the trusted keys that say whether it can write one. -/
def filter (node : KeyId) : ChangeFilter := (ChangeFilter.of (.path clusterNodesKey (ownPath node))).and (.namespace trustedKeysKey)

/-- `spawn` opens the subscription while nothing else can move the core; the first check runs at once. -/
def Actor.spawn (node : KeyId) (σ : System) (addr : EndpointAddr) : Actor :=
  { system := σ.register (filter node), ledger := σ.subscriptions.length, addr, seen := true, armed := true,
    publish := .default, trips := [], state := .unchecked }

section Run

variable [AddrText] [Encoding] [DecidableEq Externals.EndpointId] [DecidableEq TransportAddr] (keys : NodeKeys)

/-- A settle timer that fired: a trip with the address of the moment, or one owed. -/
def Actor.fired (actor : Actor) (seen : Bool) : Actor :=
  let (publish, started) := actor.publish.request
  { actor with
    seen, armed := false, publish
    trips := if started then actor.trips ++ [.out actor.addr] else actor.trips
    state := if started then .pending else actor.state }

/-- One step of the actor, of its endpoint or of the core beside them. -/
inductive Actor.Step (contents : Set SignedPortion) (actor : Actor) : Actor → Prop
  | core {system : System} (step : System.Step contents actor.system system)
    (beside : System.Beside actor.ledger actor.system system) : Step contents actor { actor with system }
  | moves (addr : EndpointAddr) (distinct : addr.addrs.Nodup) : Step contents actor { actor with addr, seen := false }
  | updated (unseen : actor.seen = false) : Step contents actor { actor with seen := true, armed := true, state := .pending }
  | wakes {sub : Subscription} (found : actor.system.subscription actor.ledger = some sub) (checking : sub.reader = .checking)
    (pending : sub.shared.pending.isSome = true) :
    Step contents actor { actor with system := actor.system.takes actor.ledger, armed := true }
  | fires (armed : actor.armed = true) (seen : Bool) (still : actor.seen = true → seen = true) :
    Step contents actor (actor.fired seen)
  | advertises {before after : List Trip} {addr : EndpointAddr} (idle : actor.system.mainloop = .idle)
    (split : actor.trips = before ++ .out addr :: after) : Step contents actor { actor with
      system := (actor.system.advertise keys addr).2
      trips := before ++ .back (actor.system.advertise keys addr).1 :: after }
  | lands {before after : List Trip} {outcome : Res Error Advertised} (split : actor.trips = before ++ .back outcome :: after) :
    Step contents actor { actor with
      publish := actor.publish.landed.1, armed := actor.armed || actor.publish.landed.2, trips := before ++ after
      state := settleOutcome outcome }

/-- A core its own compactions cut on the log, whose listing is a map in key order, as a map is. -/
structure Sound (contents : Set SignedPortion) (σ : System) : Prop where
  reachable : Reachable contents σ.chain σ.store
  ordered : ∀ v ns, σ.store.versions[σ.chain.head]? = some v → v[clusterNodesKey]? = some ns → Ordered ns.value

omit [AddrText] [Encoding] [DecidableEq Externals.EndpointId] [DecidableEq TransportAddr] in
theorem Sound.congr {contents : Set SignedPortion} {σ σ' : System} (h : Sound contents σ) (hchain : σ'.chain = σ.chain)
    (hstore : σ'.store = σ.store) : Sound contents σ' := by
  refine ⟨?_, ?_⟩
  · rw [hchain, hstore]
    exact h.reachable
  · rw [hchain, hstore]
    exact h.ordered

/-- The states an actor can come to, spawned by a core between two requests. -/
inductive Actor.Runs (contents : Set SignedPortion) : Actor → Prop
  | spawned {σ : System} {addr : EndpointAddr} (core : System.Runs contents σ) (idle : σ.mainloop = .idle)
    (sound : Sound contents σ) (distinct : addr.addrs.Nodup) : Runs contents (.spawn keys.keyId σ addr)
  | step {actor actor' : Actor} (before : Runs contents actor) (step : actor.Step keys contents actor')
    (sound : Sound contents actor'.system) : Runs contents actor'

/-- Nothing is left to do: the core publishes nothing, the reader sleeps without a wake in its channel, the
endpoint's address was seen, the timer is unarmed and no trip is in flight. -/
structure Actor.Rests (actor : Actor) : Prop where
  mainloop : actor.system.mainloop = .idle
  asleep : ∃ sub, actor.system.subscription actor.ledger = some sub ∧ sub.reader = .blocked ∧ sub.shared.wake = false
  seen : actor.seen = true
  armed : actor.armed = false
  publish : actor.publish.inFlight = false

end Run

/-! ## What the mainloop answers -/

section Answers

variable [AddrText] [Encoding] [DecidableEq Externals.EndpointId] [DecidableEq TransportAddr] {keys : NodeKeys} {σ σ' : System}
  {nodes : ExtTreeMap KeyId EndpointAddr} {addr : EndpointAddr} {outcome : Res Error Advertised}

/-- What is answered without a run says where the listing stands. -/
theorem says_of_answered {core : Core} (listed : core.peerAddresses = .ok nodes) {answer : Advertised}
    (h : core.advertiseRun keys addr = .ok (.inl answer)) : (settleOutcome (.ok answer)).Says nodes[keys.keyId]? addr := by
  unfold Core.advertiseRun at h
  simp only [listed, Res.ok_bind] at h
  split at h
  · rename_i hnone
    cases h
    exact hnone
  rename_i current hcurrent
  split at h
  · rename_i hsame
    cases h
    exact ⟨current, hcurrent, hsame⟩
  rename_i hstale
  split at h
  · rename_i hid
    cases h
    exact ⟨current, hcurrent, rfl, hid⟩
  rename_i hid
  obtain ⟨alone, -, h⟩ := Res.bind_eq_ok h
  split at h
  · cases h
    exact ⟨current, hcurrent, hstale, not_not.1 hid⟩
  · obtain ⟨batch, -, h⟩ := Res.bind_eq_ok h
    cases h

/-- A run, or a failure on the way to one, is for a stale listing of this endpoint. -/
theorem stale_of_unanswered {core : Core} (listed : core.peerAddresses = .ok nodes)
    (h : ∀ answer, core.advertiseRun keys addr ≠ .ok (.inl answer)) :
    ∃ current, nodes[keys.keyId]? = some current ∧ ¬ current.Same addr ∧ current.id = addr.id := by
  unfold Core.advertiseRun at h
  simp only [listed, Res.ok_bind] at h
  split at h
  · exact absurd rfl (h .notListed)
  rename_i current hcurrent
  split at h
  · exact absurd rfl (h .unchanged)
  rename_i hstale
  split at h
  · exact absurd rfl (h (.otherEndpoint current.id))
  rename_i hid
  exact ⟨current, hcurrent, hstale, not_not.1 hid⟩

/-- What the mainloop answers, short of a write, says where the listing stood. -/
theorem says_advertise (listed : σ.core.peerAddresses = .ok nodes)
    (h : ∀ digest, (σ.advertise keys addr).1 ≠ .ok (.written digest)) :
    (settleOutcome (σ.advertise keys addr).1).Says nodes[keys.keyId]? addr := by
  have hfailed : ∀ e : Halt Error, (∀ answer, σ.core.advertiseRun keys addr ≠ .ok (.inl answer)) →
      (PublishState.failed e).Says nodes[keys.keyId]? addr := fun _ hrun => stale_of_unanswered listed hrun
  unfold System.advertise at h ⊢
  split
  · rename_i e hrun
    exact hfailed e fun answer hanswer => by rw [hanswer] at hrun; cases hrun
  · rename_i answer hrun
    exact says_of_answered listed hrun
  · rename_i batch hrun
    have hstale : ∀ answer, σ.core.advertiseRun keys addr ≠ .ok (.inl answer) := fun answer hanswer => by
      rw [hrun] at hanswer
      cases hanswer
    simp only [hrun] at h
    split
    · rename_i e hlast
      exact hfailed e hstale
    · rename_i digest hlast
      simp only [hlast] at h
      cases houtcome : (Lotusd.insert σ.chain σ.store batch).outcome with
      | ok i => exact absurd (by rw [houtcome]; rfl) (h digest)
      | error e => exact hfailed e hstale

/-- It is `Core::advertise`, beside the movement it publishes. -/
theorem advertise_core (σ : System) : σ.core.advertise keys addr =
    ((σ.advertise keys addr).1, ⟨(σ.advertise keys addr).2.chain, (σ.advertise keys addr).2.store, σ.chain.root⟩) := by
  unfold System.advertise Core.advertise
  cases hrun : σ.core.advertiseRun keys addr with
  | error e => rfl
  | ok run =>
    cases run with
    | inl answer => rfl
    | inr batch =>
      dsimp only
      cases hlast : lastDigest batch with
      | error e =>
        unfold lastDigest at hlast
        simp only [hlast]
        rfl
      | ok digest =>
        unfold lastDigest at hlast
        simp only [hlast, System.insert_chain, System.insert_store]
        rfl

/-- What was written lists the address. -/
theorem says_written {contents : Set SignedPortion} (laws : DigestLaws contents) (texts : RoundTrips)
    (signed : ∀ e signed, keys.sign e = .ok signed → signed.toSignedPortion ∈ contents) (sound : Sound contents σ)
    (distinct : addr.addrs.Nodup) {digest : EnvelopeDigest} (h : (σ.advertise keys addr).1 = .ok (.written digest)) :
    ∃ listed, (σ.advertise keys addr).2.core.peerAddresses = .ok listed ∧
      ∃ current, listed[keys.keyId]? = some current ∧ current.Same addr := by
  obtain ⟨W, rfl, hgood⟩ := sound.reachable.good laws
  have hcore := @advertise_core _ _ _ _ _ keys addr σ
  rw [h] at hcore
  obtain ⟨⟨⟨_, listed, -, hlisted, hown, -⟩, -⟩, -⟩ := Core.advertise_written hgood texts signed sound.ordered distinct hcore
  exact ⟨listed, hlisted, hown⟩

end Answers

/-! ## What a trip brings back -/

/-- What the ledger holds under this node's own path, where it holds the version, and the endpoint's address. -/
abbrev Found := Option (Option Value) × EndpointAddr

/-- The address an entry of the nodes lists `node` at. -/
def listedAs (node : KeyId) (value : Value) : Option EndpointAddr :=
  match parseClusterNode (Externals.keyIdToHex node, value) with
  | .ok (id, addr) => if id = node then some addr else none
  | .error _ => none

/-- What a settled state says of what was found. -/
def PublishState.SaysOf (node : KeyId) (state : PublishState) (found : Found) : Prop :=
  state.Says (found.1.join.bind (listedAs node)) found.2

/-- A trip beside what its reader makes of it: it carries the endpoint's address unless there is more to
hear of, and brings back an outcome that says what it found. -/
inductive Matches (node : KeyId) (truth : Found) (told : Prop) : Trip → Reread.Trip Found → Prop
  | out {addr : EndpointAddr} (distinct : addr.addrs.Nodup) (right : told ∨ addr = truth.2) : Matches node truth told (.out addr) .out
  | back {outcome : Res Error Advertised} {found : Found} (right : (settleOutcome outcome).SaysOf node found) :
    Matches node truth told (.back outcome) (.back found)

/-- The trips under way read as those of a reader that is told of the ledger and of the endpoint. -/
def Reads (node : KeyId) (truth : Found) (told : Prop) (inFlight : Bool) (trips : List Trip) (last : Option Found) : Prop :=
  ∃ ts, Reread.Kept truth ⟨told, if inFlight then .running else .idle, ts, last⟩ ∧ List.Forall₂ (Matches node truth told) trips ts

section Reads

variable {node : KeyId} {truth truth' : Found} {told told' : Prop} {inFlight : Bool} {trips before after : List Trip}
  {last : Option Found}

theorem Reads.moves (h : Reads node truth told inFlight trips last) (news : truth' ≠ truth → told') (still : told → told') :
    Reads node truth' told' inFlight trips last := by
  obtain ⟨ts, hkept, hmatches⟩ := h
  refine ⟨ts, hkept.step (.moves news still), hmatches.imp fun trip t hmatch => ?_⟩
  cases hmatch with
  | out distinct right =>
    refine .out distinct ?_
    rcases right with htold | rfl
    · exact .inl (still htold)
    · by_cases hsame : truth' = truth
      · exact .inr (by rw [hsame])
      · exact .inl (news hsame)
  | back right => exact .back right

/-- The one trip there is, and what is made of it. -/
theorem Reads.single {trip : Trip} (h : Reads node truth told inFlight trips last) (split : trips = before ++ trip :: after) :
    before = [] ∧ after = [] ∧ inFlight = true ∧ ∃ t, Matches node truth told trip t ∧
      Reread.Kept truth ⟨told, .running, [t], last⟩ := by
  obtain ⟨ts, hkept, hmatches⟩ := h
  have hlen := hkept.single
  have hsame := hmatches.length_eq
  rw [split, List.length_append, List.length_cons] at hsame
  cases inFlight with
  | false =>
    have hnone : ts.length = 0 := hlen
    omega
  | true =>
    have hone : ts.length = 1 := hlen
    obtain rfl : before = [] := List.length_eq_zero_iff.1 (by omega)
    obtain rfl : after = [] := List.length_eq_zero_iff.1 (by omega)
    rw [split] at hmatches
    obtain ⟨t, rest, hmatch, hrest, rfl⟩ := List.forall₂_cons_left_iff.1 hmatches
    cases hrest
    exact ⟨rfl, rfl, rfl, t, hmatch, hkept⟩

/-- A trip starts where none is in flight. -/
theorem Reads.departs (h : Reads node truth told false trips last) (heard : told) (distinct : truth.2.addrs.Nodup) :
    Reads node truth False true (trips ++ [.out truth.2]) last := by
  obtain ⟨ts, hkept, hmatches⟩ := h
  obtain rfl : ts = [] := List.length_eq_zero_iff.1 hkept.single
  cases hmatches
  exact ⟨[.out], hkept.step (.wakes heard), .cons (.out distinct (.inr rfl)) .nil⟩

/-- The mainloop answers, from what the ledger holds. -/
theorem Reads.answers (h : Reads node truth told inFlight trips last) {addr : EndpointAddr}
    (split : trips = before ++ .out addr :: after) {outcome : Res Error Advertised}
    (spoken : (settleOutcome outcome).SaysOf node (truth.1, addr)) :
    Reads node truth told inFlight (before ++ .back outcome :: after) last := by
  obtain ⟨rfl, rfl, rfl, t, hmatch, hkept⟩ := h.single split
  cases hmatch with
  | out distinct right =>
    have hout : ([.out] : List (Reread.Trip Found)) = [] ++ .out :: [] := rfl
    have hread := hkept.step (.reads (right.imp_right fun haddr => (by rw [haddr] : (truth.1, addr) = truth)) hout)
    exact ⟨_, hread, .cons (.back spoken) .nil⟩

/-- A trip lands with what it found. -/
theorem Reads.lands (h : Reads node truth told inFlight trips last) {outcome : Res Error Advertised}
    (split : trips = before ++ .back outcome :: after) :
    ∃ found, Reads node truth told false (before ++ after) (some found) ∧ (settleOutcome outcome).SaysOf node found := by
  obtain ⟨rfl, rfl, rfl, t, hmatch, hkept⟩ := h.single split
  cases hmatch with
  | @back _ found right =>
    have hback : ([.back found] : List (Reread.Trip Found)) = [] ++ .back found :: [] := rfl
    have hland := hkept.step (.lands hback)
    exact ⟨found, ⟨_, hland, .nil⟩, right⟩

end Reads

/-! ## The entry of a node -/

section Entry

variable {contents : Set SignedPortion} {σ : System} {node : KeyId} {nodes : ExtTreeMap KeyId EndpointAddr}

/-- What the ledger holds under `node`'s own path. -/
def own (node : KeyId) (σ : System) : Option (Option Value) := σ.reads fun v => entryAt v clusterNodesKey (Externals.keyIdToHex node)

/-- It is framed by that path: an entry of a map does not move when entries of arrays do. -/
theorem framed_own (node : KeyId) : Framed (fun v => entryAt v clusterNodesKey (Externals.keyIdToHex node)) clusterNodesKey
    (some (ownPath node)) := by
  intro msg op w v hop hu hk
  have hframed := framed_entry clusterNodesKey (Externals.keyIdToHex node) hop hu hk
  simpa only [State.entryAt, entryAt, walk_key] using hframed

/-- A node is listed at what its own entry says. -/
theorem listed_eq (sound : Sound contents σ) {v : Version} (hv : σ.store.versions[σ.chain.head]? = some v)
    (listed : σ.core.peerAddresses = .ok nodes) : nodes[node]? = (own node σ).join.bind (listedAs node) := by
  have hown : (own node σ).join = entryAt v clusterNodesKey (Externals.keyIdToHex node) := by
    unfold own System.reads
    rw [hv]
    rfl
  rw [hown]
  cases hns : v[clusterNodesKey]? with
  | none =>
    have hempty : nodes = ∅ := by
      unfold Core.peerAddresses Ledger.peerAddresses at listed
      have hread : σ.core.storage.versions[σ.core.chain.ledger.head]? = some v := hv
      rw [Ledger.nsAt_eq_ok hread, Res.ok_bind, hns] at listed
      exact (Except.ok.inj listed).symm
    simp [entryAt, hns, hempty]
  | some ns =>
    have hcore : σ.core.storage.versions[σ.core.head]? = some v := hv
    have hparse := (peerAddresses_iff hcore hns).1 listed
    obtain ⟨value⟩ := ns
    cases value with
    | map entries =>
      have hsorted : Entries.Sorted entries := by
        have hmap := sound.ordered v _ hv hns
        unfold Ordered at hmap
        exact hmap.1
      have hentry : entryAt v clusterNodesKey (Externals.keyIdToHex node) = Entries.get entries (Externals.keyIdToHex node) := by
        unfold entryAt
        rw [hns]
        rfl
      rw [hentry]
      refine Option.ext fun addr => ?_
      rw [getElem?_parseClusterNodes hsorted hparse, Option.bind_eq_some_iff]
      refine exists_congr fun value => and_congr_right fun _ => ?_
      unfold listedAs
      cases parseClusterNode (Externals.keyIdToHex node, value) with
      | error e => exact ⟨fun h => (by cases h), fun h => (by cases h)⟩
      | ok parsed =>
        obtain ⟨id, current⟩ := parsed
        by_cases hid : id = node
        · subst hid
          simp
        · simp [hid]
    | _ => cases hparse

end Entry

/-! ## What every state satisfies -/

section Kept

/-- The actor has something to hear of, or to do about what it heard. -/
def Actor.Told (actor : Actor) (sub : Subscription) : Prop :=
  actor.system.Owes actor.ledger sub ∨ actor.seen = false ∨ actor.armed = true ∨ actor.publish.again = true

/-- What there is to find for it. -/
def Actor.truth (node : KeyId) (actor : Actor) : Found := (own node actor.system, actor.addr)

/-- The state tells what was found last, or a trip is to follow. -/
def Actor.Settled (node : KeyId) (actor : Actor) (last : Option Found) : Prop :=
  ∀ found, last = some found → actor.state.SaysOf node found ∨ actor.armed = true ∨ actor.publish.inFlight = true

/-- What a run keeps. -/
structure Actor.Kept (contents : Set SignedPortion) (node : KeyId) (actor : Actor) : Prop where
  core : System.Runs contents actor.system
  sound : Sound contents actor.system
  distinct : actor.addr.addrs.Nodup
  reading : ∃ sub last, actor.system.subscription actor.ledger = some sub ∧ sub.shared.filter = filter node ∧
    Reads node (actor.truth node) (actor.Told sub) actor.publish.inFlight actor.trips last ∧ actor.Settled node last

variable {contents : Set SignedPortion} {node : KeyId} {actor : Actor}

theorem covers_own {movement : Movement} (h : movement.changes.touches clusterNodesKey (some (ownPath node)) = true) :
    (filter node).matches movement = true := by
  simp [filter, ChangeFilter.matches, ChangeFilter.of, ChangeFilter.and, ChangeFilter.selectors, ChangeSelector.selects, h]

theorem Actor.kept_spawn {σ : System} {addr : EndpointAddr} (core : System.Runs contents σ) (idle : σ.mainloop = .idle)
    (sound : Sound contents σ) (distinct : addr.addrs.Nodup) : Actor.Kept contents node (.spawn node σ addr) := by
  refine ⟨.step core (.register _ idle), sound.congr rfl rfl, distinct,
    ⟨_, none, System.subscription_register σ (filter node), rfl, ⟨[], ⟨rfl, .told (.inr (.inr (.inl rfl)))⟩, .nil⟩,
      fun _ h => (by cases h)⟩⟩

/-- The core moved beside the actor. -/
theorem Actor.Kept.core_step (laws : DigestLaws contents) (h : Actor.Kept contents node actor) {system : System}
    (step : System.Step contents actor.system system) (beside : System.Beside actor.ledger actor.system system)
    (sound : Sound contents system) : Actor.Kept contents node { actor with system } := by
  obtain ⟨sub, last, hsub, hfilter, hreads, hsettled⟩ := h.reading
  obtain ⟨W, rfl, hi⟩ := h.core.invariant laws
  obtain ⟨sub', hstays⟩ := step.stays hsub beside
  have hfilter' := hstays.filter.trans hfilter
  refine ⟨.step h.core step, sound, h.distinct, ⟨sub', last, hstays.found, hfilter', ?_, hsettled⟩⟩
  refine hreads.moves (fun hne => .inl ?_) (Or.imp_left hstays.owes)
  refine step.owes (framed_own node) hi (fun same => hne ?_) fun movement htouch => ?_
  · exact Prod.ext same rfl
  · rw [hfilter']
    exact covers_own htouch

/-- The endpoint moved. -/
theorem Actor.Kept.moves_step (h : Actor.Kept contents node actor) (addr : EndpointAddr) (distinct : addr.addrs.Nodup) :
    Actor.Kept contents node { actor with addr, seen := false } := by
  obtain ⟨sub, last, hsub, hfilter, hreads, hsettled⟩ := h.reading
  exact ⟨h.core, h.sound, distinct, ⟨sub, last, hsub, hfilter,
    hreads.moves (fun _ => .inr (.inl rfl)) (fun _ => .inr (.inl rfl)), hsettled⟩⟩

/-- The actor saw the endpoint move. -/
theorem Actor.Kept.updated_step (h : Actor.Kept contents node actor) :
    Actor.Kept contents node { actor with seen := true, armed := true, state := .pending } := by
  obtain ⟨sub, last, hsub, hfilter, hreads, -⟩ := h.reading
  exact ⟨h.core, h.sound, h.distinct, ⟨sub, last, hsub, hfilter,
    hreads.moves (fun hne => absurd rfl hne) (fun _ => .inr (.inr (.inl rfl))), fun _ _ => .inr (.inl rfl)⟩⟩

/-- The reader took what was pending. -/
theorem Actor.Kept.wakes_step (h : Actor.Kept contents node actor) {sub : Subscription}
    (found : actor.system.subscription actor.ledger = some sub) (checking : sub.reader = .checking)
    (pending : sub.shared.pending.isSome = true) (sound : Sound contents (actor.system.takes actor.ledger)) :
    Actor.Kept contents node { actor with system := actor.system.takes actor.ledger, armed := true } := by
  obtain ⟨sub₀, last, hsub, hfilter, hreads, -⟩ := h.reading
  rw [found] at hsub
  cases hsub
  obtain ⟨moved, hmoved⟩ := Option.isSome_iff_exists.1 pending
  refine ⟨.step h.core (.take _), sound, h.distinct, ⟨sub.take, last, ?_, ?_,
    hreads.moves (fun hne => absurd rfl hne) (fun _ => .inr (.inr (.inl rfl))), fun _ _ => .inr (.inl rfl)⟩⟩
  · rw [System.subscription_takes found checking, if_pos rfl]
  · rw [Subscription.take_some hmoved]
    exact hfilter

/-- The timer fired. -/
theorem Actor.Kept.fires_step (h : Actor.Kept contents node actor) (armed : actor.armed = true) (seen : Bool) :
    Actor.Kept contents node (actor.fired seen) := by
  obtain ⟨sub, last, hsub, hfilter, hreads, hsettled⟩ := h.reading
  cases hflight : actor.publish.inFlight with
  | true =>
    have hfired : actor.fired seen = { actor with seen, armed := false, publish := ⟨true, true, id⟩ } := by
      unfold Actor.fired Publish.request
      simp [hflight]
    rw [hfired]
    rw [hflight] at hreads
    exact ⟨h.core, h.sound, h.distinct, ⟨sub, last, hsub, hfilter,
      hreads.moves (fun hne => absurd rfl hne) (fun _ => .inr (.inr (.inr rfl))), fun _ _ => .inr (.inr rfl)⟩⟩
  | false =>
    have hfired : actor.fired seen = { actor with
        seen, armed := false, publish := { actor.publish with inFlight := true, owed := fun _ => rfl }
        trips := actor.trips ++ [.out actor.addr], state := .pending } := by
      unfold Actor.fired Publish.request
      simp [hflight]
    rw [hfired]
    rw [hflight] at hreads
    have hdeparts := hreads.departs (.inr (.inr (.inl armed))) h.distinct
    exact ⟨h.core, h.sound, h.distinct, ⟨sub, last, hsub, hfilter,
      hdeparts.moves (fun hne => absurd rfl hne) False.elim, fun _ _ => .inr (.inr rfl)⟩⟩

/-- A trip landed. -/
theorem Actor.Kept.lands_step (h : Actor.Kept contents node actor) {before after : List Trip} {outcome : Res Error Advertised}
    (split : actor.trips = before ++ .back outcome :: after) : Actor.Kept contents node { actor with
      publish := actor.publish.landed.1, armed := actor.armed || actor.publish.landed.2, trips := before ++ after
      state := settleOutcome outcome } := by
  obtain ⟨sub, last, hsub, hfilter, hreads, hsettled⟩ := h.reading
  obtain ⟨found, hlands, hspoken⟩ := hreads.lands split
  refine ⟨h.core, h.sound, h.distinct, ⟨sub, some found, hsub, hfilter, hlands.moves (fun hne => absurd rfl hne) ?_,
    fun _ h => (by cases h; exact .inl hspoken)⟩⟩
  rintro (howes | hseen | harmed | hagain)
  · exact .inl howes
  · exact .inr (.inl hseen)
  · exact .inr (.inr (.inl (by simp [harmed])))
  · exact .inr (.inr (.inl (by simp [Publish.landed, hagain])))

/-- The mainloop answered a trip, from what the ledger holds. -/
theorem Actor.Kept.answers_step (h : Actor.Kept contents node actor) {before after : List Trip} {addr : EndpointAddr}
    (split : actor.trips = before ++ .out addr :: after) {outcome : Res Error Advertised}
    (spoken : (settleOutcome outcome).SaysOf node (own node actor.system, addr)) :
    Actor.Kept contents node { actor with trips := before ++ .back outcome :: after } := by
  obtain ⟨sub, last, hsub, hfilter, hreads, hsettled⟩ := h.reading
  exact ⟨h.core, h.sound, h.distinct, ⟨sub, last, hsub, hfilter, hreads.answers split spoken, hsettled⟩⟩

/-- An address under way is a set. -/
theorem Actor.Kept.sent_distinct (h : Actor.Kept contents node actor) {before after : List Trip} {addr : EndpointAddr}
    (split : actor.trips = before ++ .out addr :: after) : addr.addrs.Nodup := by
  obtain ⟨sub, last, -, -, hreads, -⟩ := h.reading
  obtain ⟨-, -, -, t, hmatch, -⟩ := hreads.single split
  cases hmatch with
  | out distinct => exact distinct

theorem Sound.exists_listed (laws : DigestLaws contents) {σ : System} (sound : Sound contents σ) :
    ∃ v nodes, σ.store.versions[σ.chain.head]? = some v ∧ σ.core.peerAddresses = .ok nodes := by
  obtain ⟨W, rfl, hlive⟩ := sound.reachable.live laws
  obtain ⟨v, hv, hstate⟩ := hlive.exists_head
  have hread : σ.store.versions[σ.chain.ledger.head]? = some v := hv
  obtain ⟨nodes, hnodes⟩ := Ledger.peerAddresses_of_ruled hread hstate.ruled
  refine ⟨v, nodes, hv, ?_⟩
  unfold Core.peerAddresses
  rw [show σ.core.chain.ledger.peerAddresses σ.core.storage = .ok nodes from hnodes]
  rfl

section Advertises

variable [AddrText] [Encoding] [DecidableEq Externals.EndpointId] [DecidableEq TransportAddr] {keys : NodeKeys}

/-- Advertising inserts what this node signed, or nothing. -/
theorem advertise_inserts (signed : ∀ e signed, keys.sign e = .ok signed → signed.toSignedPortion ∈ contents) (σ : System)
    (addr : EndpointAddr) : (σ.advertise keys addr).2 = σ ∨
      ∃ batch : List Envelope, (∀ e ∈ batch, e.toSignedPortion ∈ contents) ∧ (σ.advertise keys addr).2 = σ.insert batch := by
  unfold System.advertise
  split
  · exact .inl rfl
  · exact .inl rfl
  · rename_i batch hrun
    split
    · exact .inl rfl
    · refine .inr ⟨batch, fun e he => ?_, rfl⟩
      obtain ⟨listed, current, -, -, -, -, -, hbatch⟩ := advertiseRun_eq_built hrun
      obtain ⟨u, us, hupdates, -⟩ := advertiseBatch_cases hbatch
      obtain ⟨p, u, hsign⟩ := signed_of_signUpdates hupdates e he
      exact signed _ _ hsign

/-- The mainloop advertised the address of a trip. -/
theorem Actor.Kept.advertises_step (laws : DigestLaws contents) (texts : RoundTrips)
    (signed : ∀ e signed, keys.sign e = .ok signed → signed.toSignedPortion ∈ contents)
    (h : Actor.Kept contents keys.keyId actor) {before after : List Trip} {addr : EndpointAddr}
    (idle : actor.system.mainloop = .idle) (split : actor.trips = before ++ .out addr :: after)
    (sound : Sound contents (actor.system.advertise keys addr).2) : Actor.Kept contents keys.keyId { actor with
      system := (actor.system.advertise keys addr).2
      trips := before ++ .back (actor.system.advertise keys addr).1 :: after } := by
  have hmoved : ∀ {actor : Actor}, Actor.Kept contents keys.keyId actor → actor.system.mainloop = .idle →
      Sound contents (actor.system.advertise keys addr).2 →
      Actor.Kept contents keys.keyId { actor with system := (actor.system.advertise keys addr).2 } := by
    intro actor h idle sound
    rcases advertise_inserts signed actor.system addr with hsame | ⟨batch, hcontent, hinsert⟩
    · rw [hsame]
      exact h
    · rw [hinsert] at sound ⊢
      refine h.core_step laws (.insert idle hcontent) (fun sub hsub => ⟨sub, ?_, rfl⟩) sound
      exact (System.subscription_insert _ batch).trans hsub
  have hdistinct := h.sent_distinct split
  by_cases hwritten : ∃ digest, (actor.system.advertise keys addr).1 = .ok (.written digest)
  · -- what was written is what the ledger holds from now on
    obtain ⟨digest, hdigest⟩ := hwritten
    obtain ⟨v, nodes, hv, hnodes⟩ := sound.exists_listed laws
    obtain ⟨listed, hlisted, hown⟩ := says_written laws texts signed h.sound hdistinct hdigest
    rw [hnodes] at hlisted
    cases hlisted
    refine (hmoved h idle sound).answers_step split ?_
    rw [hdigest]
    rw [listed_eq sound hv hnodes] at hown
    exact hown
  · obtain ⟨v, nodes, hv, hnodes⟩ := h.sound.exists_listed laws
    have hspoken := @says_advertise _ _ _ _ _ keys actor.system nodes addr hnodes fun digest hdigest => hwritten ⟨digest, hdigest⟩
    rw [listed_eq h.sound hv hnodes] at hspoken
    have hanswered := h.answers_step split hspoken
    exact hmoved hanswered idle sound

theorem Actor.Kept.step (laws : DigestLaws contents) (texts : RoundTrips)
    (signed : ∀ e signed, keys.sign e = .ok signed → signed.toSignedPortion ∈ contents) {actor' : Actor}
    (h : Actor.Kept contents keys.keyId actor) (step : actor.Step keys contents actor') (sound : Sound contents actor'.system) :
    Actor.Kept contents keys.keyId actor' := by
  cases step with
  | core step beside => exact h.core_step laws step beside sound
  | moves addr distinct => exact h.moves_step addr distinct
  | updated unseen => exact h.updated_step
  | wakes found checking pending => exact h.wakes_step found checking pending sound
  | fires armed seen still => exact h.fires_step armed seen
  | advertises idle split => exact h.advertises_step laws texts signed idle split sound
  | lands split => exact h.lands_step split

theorem Actor.Runs.kept (laws : DigestLaws contents) (texts : RoundTrips)
    (signed : ∀ e signed, keys.sign e = .ok signed → signed.toSignedPortion ∈ contents) (h : Actor.Runs keys contents actor) :
    Actor.Kept contents keys.keyId actor := by
  induction h with
  | spawned core idle sound distinct => exact Actor.kept_spawn core idle sound distinct
  | step _ step sound ih => exact ih.step laws texts signed step sound

/-! ## At rest -/

/-- Whatever the interleaving, an actor that rests tells where this node's listing stands: it is published
where the ledger lists the endpoint's address, and where the listing is missing, another endpoint's or stale
the state says which. -/
theorem Actor.Runs.rests_telling (laws : DigestLaws contents) (texts : RoundTrips)
    (signed : ∀ e signed, keys.sign e = .ok signed → signed.toSignedPortion ∈ contents) (h : Actor.Runs keys contents actor)
    (rests : actor.Rests) : ∃ nodes, actor.system.core.peerAddresses = .ok nodes ∧ actor.state.Says nodes[keys.keyId]? actor.addr := by
  have hkept := h.kept laws texts signed
  obtain ⟨v, nodes, hv, hnodes⟩ := hkept.sound.exists_listed laws
  refine ⟨nodes, hnodes, ?_⟩
  obtain ⟨sub, last, hsub, -, ⟨ts, hreading, -⟩, hsettled⟩ := hkept.reading
  obtain ⟨sub', hsub', hblocked, hunwoken⟩ := rests.asleep
  rw [hsub] at hsub'
  cases hsub'
  obtain ⟨W, rfl, hi⟩ := hkept.core.invariant laws
  obtain ⟨-, huntold⟩ := untold_of_asleep hi rests.mainloop hsub hblocked hunwoken
  have hagain : actor.publish.again = false := by
    cases hagain : actor.publish.again with
    | false => rfl
    | true => exact absurd (actor.publish.owed hagain) (by rw [rests.publish]; exact Bool.false_ne_true)
  have hlast := hreading.rest (fun htold => ?_) (by rw [rests.publish]; rfl)
  · rcases hsettled _ hlast with hsays | harmed | hflight
    · rw [listed_eq hkept.sound hv hnodes]
      exact hsays
    · rw [rests.armed] at harmed
      cases harmed
    · rw [rests.publish] at hflight
      cases hflight
  · rcases htold with howes | hseen | harmed | hagain'
    · exact huntold howes
    · rw [rests.seen] at hseen
      cases hseen
    · rw [rests.armed] at harmed
      cases harmed
    · rw [hagain] at hagain'
      cases hagain'

theorem Actor.Runs.core_steps (h : Actor.Runs keys contents actor) {system : System} (sound : Sound contents actor.system)
    (steps : Relation.ReflTransGen (System.Aside contents) actor.system system) :
    Actor.Runs keys contents { actor with system } := by
  obtain ⟨hruns, -⟩ : Actor.Runs keys contents { actor with system } ∧ Sound contents system := by
    induction steps with
    | refl => exact ⟨h, sound⟩
    | @tail σ σ' _ step ih =>
      obtain ⟨hruns, hsound⟩ := ih
      have hsound' : Sound contents σ' := hsound.congr step.chain step.store
      exact ⟨.step hruns (.core step.step (step.beside actor.ledger)) hsound', hsound'⟩
  exact hruns

/-- An armed timer has the mainloop asked once, and its answer settles the state. -/
theorem Actor.Runs.settles (h : Actor.Runs keys contents actor) (idle : actor.system.mainloop = .idle)
    (home : actor.publish = .default) (trips : actor.trips = []) (seen : actor.seen = true) (armed : actor.armed = true)
    {outcome : Res Error Advertised} {σ : System} (answered : actor.system.advertise keys actor.addr = (outcome, σ))
    (sound : Sound contents actor.system) (sound' : Sound contents σ) :
    Actor.Runs keys contents { actor with
      system := σ, armed := false, publish := .default, trips := [], state := settleOutcome outcome } := by
  obtain ⟨system, ledger, addr, seen', armed', publish, trips', state⟩ := actor
  dsimp only at *
  subst home trips seen armed
  have hfired : Actor.Runs keys contents ⟨system, ledger, addr, true, false, Publish.default.request.1, [.out addr], .pending⟩ :=
    h.step (.fires rfl true id) sound
  have hout : [Trip.out addr] = [] ++ .out addr :: [] := rfl
  have hasked := hfired.step (.advertises idle hout) (by dsimp only; rw [answered]; exact sound')
  dsimp only at hasked
  rw [answered] at hasked
  have hback : ([] ++ .back (outcome, σ).1 :: [] : List Trip) = [] ++ .back outcome :: [] := rfl
  have hlanded := hasked.step (.lands hback) sound'
  exact hlanded

/-- Woken for its listing, the actor takes what it is told of and arms its timer. -/
theorem Actor.Runs.rearms (h : Actor.Runs keys contents actor) (sound : Sound contents actor.system)
    (woken : actor.system.Woken actor.ledger) :
    Actor.Runs keys contents { actor with system := (actor.system.polled actor.ledger).takes actor.ledger, armed := true } ∧
      ((actor.system.polled actor.ledger).takes actor.ledger).Sated actor.ledger := by
  obtain ⟨⟨looking, moved, hlooking, hchecking, hpending⟩, htook, -⟩ := woken.takes
  have hpolled := h.core_steps sound (.single (System.aside_polled actor.system actor.ledger))
  exact ⟨hpolled.step (.wakes hlooking hchecking (by rw [hpending]; rfl)) (sound.congr rfl rfl), htook⟩

/-- With nothing more to take its reader goes to sleep. -/
theorem Actor.Runs.sleeps (h : Actor.Runs keys contents actor) (sound : Sound contents actor.system)
    (idle : actor.system.mainloop = .idle) (home : actor.publish = .default) (seen : actor.seen = true)
    (armed : actor.armed = false) (sated : actor.system.Sated actor.ledger) :
    ∃ actor', Actor.Runs keys contents actor' ∧ actor'.Rests ∧ actor'.system.core = actor.system.core ∧
      actor'.addr = actor.addr ∧ actor'.state = actor.state := by
  obtain ⟨sub, hsub, hidle, hnothing, hunwoken⟩ := sated
  have hslept := h.core_steps sound (System.dozes hsub hnothing)
  have hdozed := System.subscription_dozed hsub hidle hnothing hunwoken idle
  exact ⟨_, hslept, ⟨idle, ⟨_, (hdozed _).trans (if_pos rfl), rfl, hunwoken⟩, seen, armed, by rw [home]; rfl⟩, rfl, rfl, rfl⟩

theorem advertise_answered {σ : System} {addr : EndpointAddr} {answer : Advertised}
    (answered : σ.core.advertiseRun keys addr = .ok (.inl answer)) : σ.advertise keys addr = (.ok answer, σ) := by
  unfold System.advertise
  rw [answered]

/-- An actor just spawned whose address the mainloop has an answer for, and that hears of nothing meanwhile,
rests. -/
theorem Actor.Runs.exists_rests {σ : System} {addr : EndpointAddr} (core : System.Runs contents σ) (alive : σ.mainloop = .idle)
    (sound : Sound contents σ) (distinct : addr.addrs.Nodup) {answer : Advertised}
    (answered : σ.core.advertiseRun keys addr = .ok (.inl answer)) :
    ∃ actor, Actor.Runs keys contents actor ∧ actor.Rests ∧ actor.system.core = σ.core ∧ actor.addr = addr ∧
      actor.state = settleOutcome (.ok answer) := by
  have hsub := System.subscription_register σ (filter keys.keyId)
  have hsound : Sound contents (σ.register (filter keys.keyId)) := sound.congr rfl rfl
  have hspawned : Actor.Runs keys contents (.spawn keys.keyId σ addr) := .spawned core alive sound distinct
  have hanswered : (σ.register (filter keys.keyId)).core.advertiseRun keys addr = .ok (.inl answer) := answered
  have hsettled := hspawned.settles alive rfl rfl rfl rfl (advertise_answered hanswered) hsound hsound
  exact hsettled.sleeps hsound alive rfl rfl rfl ⟨_, hsub, rfl, rfl, rfl⟩

/-- What is at rest of an actor. -/
theorem Actor.Rests.quiet (laws : DigestLaws contents) (texts : RoundTrips)
    (signed : ∀ e signed, keys.sign e = .ok signed → signed.toSignedPortion ∈ contents) (h : Actor.Runs keys contents actor)
    (rests : actor.Rests) : actor.publish = .default ∧ actor.trips = [] ∧ Sound contents actor.system ∧
      ∃ sub, actor.system.subscription actor.ledger = some sub ∧ sub.shared.filter = filter keys.keyId ∧
        sub.reader = .blocked := by
  have hkept := h.kept laws texts signed
  obtain ⟨sub, last, hsub, hfilter, ⟨ts, hreading, hmatches⟩, -⟩ := hkept.reading
  obtain ⟨sub', hsub', hblocked, -⟩ := rests.asleep
  rw [hsub] at hsub'
  cases hsub'
  refine ⟨?_, ?_, hkept.sound, sub, hsub, hfilter, hblocked⟩
  · have hidle := rests.publish
    generalize actor.publish = publish at hidle
    obtain ⟨inFlight, again, howed⟩ := publish
    obtain rfl : inFlight = false := hidle
    cases again
    · rfl
    · cases howed rfl
  · have hsingle := hreading.single
    rw [rests.publish] at hsingle
    obtain rfl : ts = [] := List.length_eq_zero_iff.1 hsingle
    exact List.forall₂_nil_right_iff.1 hmatches

/-- Where its endpoint moves and the mainloop writes the listing anew, an actor at rest comes to rest again,
having checked what it was told of its own write. -/
theorem Actor.Runs.rests_again (laws : DigestLaws contents) (texts : RoundTrips)
    (signed : ∀ e signed, keys.sign e = .ok signed → signed.toSignedPortion ∈ contents) (h : Actor.Runs keys contents actor)
    (rests : actor.Rests) {addr : EndpointAddr} (distinct : addr.addrs.Nodup) {batch : List Envelope} {d : EnvelopeDigest}
    {i : Insert} {p : Published} (built : actor.system.core.advertiseRun keys addr = .ok (.inr batch))
    (last : lastDigest batch = .ok d)
    (accepted : (Lotusd.insert actor.system.chain actor.system.store batch).outcome = .ok i)
    (published : (Lotusd.insert actor.system.chain actor.system.store batch).published = some p)
    (selected : (filter keys.keyId).matches p.movement = true) (sound : Sound contents (actor.system.insert batch))
    (unchanged : (actor.system.insert batch).core.advertiseRun keys addr = .ok (.inl .unchanged)) :
    ∃ actor', Actor.Runs keys contents actor' ∧ actor'.Rests ∧ actor'.system.core = (actor.system.insert batch).core ∧
      actor'.addr = addr ∧ actor'.state = .published := by
  obtain ⟨hhome, htrips, hsound, sub, hsub, hfilter, hblocked⟩ := rests.quiet laws texts signed h
  -- the endpoint moves, and the listing is written
  have hmoved := (h.step (.moves addr distinct) hsound).step (.updated rfl) hsound
  have hwritten : actor.system.advertise keys addr = (.ok (.written d), actor.system.insert batch) := by
    unfold System.advertise
    simp only [built, last, accepted]
    rfl
  have hsettled := hmoved.settles rests.mainloop hhome htrips rfl rfl hwritten hsound sound
  -- which is published to the actor as well
  obtain ⟨σ, steps, hidle, ⟨hchain, hstore⟩, hwoken⟩ := System.insert_tells contents published
  have hcore : σ.core = (actor.system.insert batch).core := by
    unfold System.core
    rw [hchain, hstore]
  have hsoundσ : Sound contents σ := sound.congr hchain hstore
  -- so it checks once more
  obtain ⟨hheard, hsated⟩ := (hsettled.core_steps sound steps).rearms hsoundσ
    (hwoken hsub (by rw [hfilter]; exact selected) hblocked)
  have hanswered : ((σ.polled actor.ledger).takes actor.ledger).core.advertiseRun keys addr = .ok (.inl .unchanged) := by
    show σ.core.advertiseRun keys addr = _
    rw [hcore]
    exact unchanged
  have hsound' : Sound contents ((σ.polled actor.ledger).takes actor.ledger) := hsoundσ.congr rfl rfl
  have hagain := hheard.settles hidle rfl rfl rfl rfl (advertise_answered hanswered) hsound' hsound'
  obtain ⟨actor', hruns, hrests, hcore', haddr, hstate⟩ :=
    hagain.sleeps hsound' hidle rfl rfl rfl hsated
  exact ⟨actor', hruns, hrests, hcore'.trans hcore, haddr, hstate⟩

end Advertises

end Kept

end IrohLotus.Lotusd.AddrPublish

/-! ## A founder at the address it lists -/

namespace IrohLotus.Lotusd.AddrPublish

open Std Outcome IrohLotus.Wire IrohLotus.Wire.Founded IrohLotus.Storage IrohLotus.State

/-- The founder's core, before anybody watches it. -/
def foundedSystem : System := ⟨foundedCore.chain, foundedCore.storage, [], .idle, []⟩

def Advertised.isUnchanged [Externals] : Advertised → Bool
  | .unchanged => true
  | _ => false

theorem sound_foundedSystem : Sound Set.univ foundedSystem := by
  unfold foundedSystem
  constructor
  · dsimp only
    exact reachable_foundedCore
  · dsimp only
    intro v ns hv hns
    obtain rfl := Option.some.inj (versions_foundedCore.symm.trans hv)
    exact ordered_foundedState ns hns

theorem unchanged_of_run {run : Res Error (Advertised ⊕ List Envelope)}
    (h : (run.toOption.map fun run => run.elim Advertised.isUnchanged fun _ => false) = some true) :
    run = .ok (.inl .unchanged) := by
  obtain ⟨built, hrun, hanswer⟩ := Option.map_eq_some_iff.1 h
  rw [except_of_toOption_some hrun]
  cases built with
  | inl answer =>
    cases answer with
    | unchanged => rfl
    | _ => cases hanswer
  | inr batch => cases hanswer

/-- Where its endpoint moves to. -/
def movedAddr : EndpointAddr := ⟨founderEndpoint, [.ip "192.0.2.1:4433"]⟩

/-- The system once its move was written. -/
def movedSystem : System := foundedSystem.insert [appended]

theorem built_moved : foundedSystem.core.advertiseRun founderKeys movedAddr = .ok (.inr [appended]) := by
  have hbuilt : ((foundedSystem.core.advertiseRun founderKeys movedAddr).toOption.bind Sum.getRight?) = some [appended] := by
    decide +kernel
  obtain ⟨run, hrun, hbatch⟩ := Option.bind_eq_some_iff.1 hbuilt
  rw [except_of_toOption_some hrun]
  cases run with
  | inl answer => cases hbatch
  | inr batch => cases hbatch; rfl

theorem published_moved : ∃ p, (Lotusd.insert foundedSystem.chain foundedSystem.store [appended]).published = some p ∧
    (filter founderKeys.keyId).matches p.movement = true := by
  have hany : (Lotusd.insert foundedSystem.chain foundedSystem.store [appended]).published.any
      (fun p => (filter founderKeys.keyId).matches p.movement) = true := by
    decide +kernel
  exact (Option.any_eq_true _ _).1 hany

theorem sound_movedSystem : Sound Set.univ movedSystem := by
  refine ⟨?_, fun v ns hv hns => ?_⟩
  · unfold movedSystem
    exact System.insert_reachable sound_foundedSystem.reachable fun _ _ => Set.mem_univ _
  · have hnodes : (movedSystem.store.versions[movedSystem.chain.head]?.bind fun v => v[clusterNodesKey]?) =
        some ⟨.map [(founderName, .map [("iroh", .map [("addrs", .array [transport "192.0.2.1:4433"]),
          ("endpoint_id", .string founderZ32)])])]⟩ := by
      decide +kernel
    rw [hv, Option.bind_some, hns] at hnodes
    cases hnodes
    exact ordered_listing founderName founderZ32 ["192.0.2.1:4433"]

/-- The founder's listing is found in order when the actor is spawned. Then its endpoint moves: the move is
written, the actor is told of its own write, and finds that in order as well. -/
theorem rests_telling_movedAddr : ∃ actor, Actor.Runs founderKeys Set.univ actor ∧ actor.Rests ∧
    actor.state = .published ∧ actor.system.core.head = appendedDigest ∧
    ∃ nodes, actor.system.core.peerAddresses = .ok nodes ∧ actor.state.Says nodes[founderKeys.keyId]? movedAddr := by
  have hsigned : ∀ e signed, founderKeys.sign e = .ok signed → signed.toSignedPortion ∈ Set.univ := fun _ _ _ => Set.mem_univ _
  have hunchanged : foundedSystem.core.advertiseRun founderKeys ⟨founderEndpoint, []⟩ = .ok (.inl .unchanged) :=
    unchanged_of_run (by decide +kernel)
  obtain ⟨first, hfirst, hrests, hcore, -⟩ :=
    Actor.Runs.exists_rests (.start reachable_foundedCore) rfl sound_foundedSystem List.nodup_nil hunchanged
  obtain ⟨hchain, hstore⟩ := System.core_inj hcore
  have hinserted : (first.system.insert [appended]).chain = movedSystem.chain ∧
      (first.system.insert [appended]).store = movedSystem.store := System.insert_congr hchain hstore [appended]
  have hmoved : (first.system.insert [appended]).core = movedSystem.core := by
    unfold System.core
    rw [hinserted.1, hinserted.2]
  have hsound : Sound Set.univ (first.system.insert [appended]) := sound_movedSystem.congr hinserted.1 hinserted.2
  have hlast : lastDigest [appended] = .ok appendedDigest := by decide +kernel
  have haccepted : (Lotusd.insert first.system.chain first.system.store [appended]).outcome = .ok .extended := by
    rw [hchain, hstore]
    exact except_of_toOption_some (by decide +kernel)
  obtain ⟨p, hp, hmatches⟩ := published_moved
  obtain ⟨actor, hruns, hrests', hcore', haddr, hstate⟩ := hfirst.rests_again founded_laws founded_texts hsigned hrests
    (List.nodup_singleton _) (by rw [hcore]; exact built_moved) hlast haccepted
    (by rw [hchain, hstore]; exact hp) hmatches hsound (by rw [hmoved]; exact unchanged_of_run (by decide +kernel))
  have hhead : movedSystem.core.head = appendedDigest := by decide +kernel
  obtain ⟨nodes, hnodes, hsays⟩ := hruns.rests_telling founded_laws founded_texts hsigned hrests'
  refine ⟨actor, hruns, hrests', hstate, by rw [hcore', hmoved, hhead], nodes, hnodes, ?_⟩
  rw [haddr] at hsays
  exact hsays

end IrohLotus.Lotusd.AddrPublish
