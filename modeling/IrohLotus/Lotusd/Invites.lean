/-
The sponsor's book of invites (`lotusd::bootstrap::Invites`) beside the core it promises from, as the
mainloop runs them: invites issued and redeemed, batches inserted and compaction passes, each at the
instant it happens.

Beside the state a run keeps the invites it printed and the tokens it welcomed.
-/
import IrohLotus.Lotusd.Core

namespace IrohLotus.Lotusd

open Std Outcome IrohLotus.Wire IrohLotus.Storage IrohLotus.State

/-! ## The book -/

/-- An instant of the monotone clock; `limit` is the last one it can represent. -/
abbrev Instant := Nat

/-- `Instant::checked_add`. -/
def checkedAdd (limit now ttl : Nat) : Option Instant := if now + ttl ≤ limit then some (now + ttl) else none

/-- The longest window an invite is granted, in seconds. -/
def MAX_INVITE_TTL : Nat := 24 * 60 * 60

/-- The bearer token a sponsor admits a joiner by. -/
structure Token where
  bytes : BitVec 256
deriving DecidableEq

/-- Compared without a branch on where the bytes differ. -/
def Token.matches (token other : Token) : Bool := token.bytes ^^^ other.bytes == 0

structure Pending where
  token : Token
  weight : UInt32
  expires : Instant
  root : EnvelopeDigest
deriving DecidableEq

inductive RedeemError where
  | unknown
  | expired
deriving DecidableEq

namespace Invites

/-- Drops what has expired. -/
def prune (pending : List Pending) (now : Instant) : List Pending := pending.filter fun p => decide (p.expires > now)

/-- Records a fresh invite, good for `ttl` from `now`. -/
def issue (limit : Nat) (pending : List Pending) (token : Token) (weight : UInt32) (ttl now : Nat) (root : EnvelopeDigest) :
    List Pending :=
  prune pending now ++ [⟨token, weight, (checkedAdd limit now ttl).getD now, root⟩]

/-- The last pending invite the token matches. -/
def find (pending : List Pending) (token : Token) : Option Nat :=
  pending.zipIdx.foldl (fun found p => if p.1.token.matches token then some p.2 else found) none

/-- Consumes the invite `token` names; the weight it admits at. -/
def redeem (pending : List Pending) (token : Token) (now : Instant) : Except RedeemError UInt32 × List Pending :=
  match find pending token with
  | none => (.error .unknown, prune pending now)
  | some i =>
    match pending[i]? with
    | some p => (if p.expires ≤ now then .error .expired else .ok p.weight, prune (pending.eraseIdx i) now)
    | none => (.error .unknown, prune pending now)

/-- The roots that invites still good promise a joiner. -/
def pinnedRoots (pending : List Pending) (now : Instant) : ExtTreeSet EnvelopeDigest :=
  ExtTreeSet.ofList ((pending.filter fun p => decide (p.expires > now)).map (·.root))

end Invites

/-! ## The mainloop -/

/-- What an invite prints of the chain it is for. -/
structure Invite where
  root : EnvelopeDigest
  token : Token

/-- What a redeemed invite answers. -/
structure Welcomed where
  root : Envelope
  state : Option FullCheckpoint
  weight : UInt32

/-- An invite as it was handed out. -/
structure Issued where
  invite : Invite
  weight : UInt32
  expires : Instant

inductive InviteError where
  | noEndpoint
  | cannotSignAlone (why : Core.CannotSignAlone)
  | entropy
  | redeem (why : RedeemError)
  | chain (e : Error)

/-- The core and its pending invites, at an instant, with the record of the run. -/
structure Sponsor where
  core : Core
  invites : List Pending
  now : Instant
  issued : List Issued
  redeemed : List Token

namespace Sponsor

variable [Externals]

/-- The invite to print, refused up front when this node could not sign the admission alone. -/
def printInvite {Endpoint : Type} (σ : Sponsor) (endpoint : Option Endpoint) (keyId : KeyId) (drawn : Option Token) :
    Res InviteError Invite := do
  let _ ← Res.okOr endpoint .noEndpoint
  let alone ← (σ.core.signsAlone keyId).mapErr .chain
  let _ ← Res.ofExcept .cannotSignAlone alone
  let token ← Res.okOr drawn .entropy
  pure ⟨σ.core.root, token⟩

/-- Issues an invite admitting one node at `weight`, with the token that was drawn. -/
def createInvite {Endpoint : Type} (σ : Sponsor) (limit : Nat) (endpoint : Option Endpoint) (keyId : KeyId) (drawn : Option Token)
    (weight : UInt32) (ttl : Nat) : Res InviteError Invite × Sponsor :=
  let granted := min ttl MAX_INVITE_TTL
  match σ.printInvite endpoint keyId drawn with
  | .error e => (.error e, σ)
  | .ok invite =>
    (.ok invite,
      { σ with
        invites := Invites.issue limit σ.invites invite.token weight granted σ.now σ.core.root
        issued := σ.issued ++ [⟨invite, weight, (checkedAdd limit σ.now granted).getD σ.now⟩] })

/-- What the joiner of a redeemed invite builds on. -/
def welcome (σ : Sponsor) (outcome : Except RedeemError UInt32) : Res InviteError Welcomed := do
  let weight ← Res.ofExcept .redeem outcome
  let (root, state) ← σ.core.welcomeRoot.mapErr .chain
  pure ⟨root, state, weight⟩

/-- Consumes a token, and answers what its joiner builds on. -/
def redeemInvite (σ : Sponsor) (token : Token) : Res InviteError Welcomed × Sponsor :=
  let (outcome, invites) := Invites.redeem σ.invites token σ.now
  match σ.welcome outcome with
  | .ok w => (.ok w, { σ with invites, redeemed := σ.redeemed ++ [token] })
  | .error e => (.error e, { σ with invites })

/-- A compaction pass, with the roots of good invites pinned. -/
def compact (σ : Sponsor) (cutoff : Option StoredAt) (keep : ℕ+) (minPrune : Nat) : Sponsor :=
  { σ with core := (σ.core.compactBefore cutoff keep minPrune (Invites.pinnedRoots σ.invites σ.now)).2 }

/-- Envelopes inserted through the chain, whether or not all of them go in. -/
def insert (σ : Sponsor) (envelopes : List Envelope) : Sponsor :=
  let (_, chain, storage) := σ.core.chain.insertBatch envelopes σ.core.storage
  { σ with core := { σ.core with chain, storage } }

/-- The runs of a sponsor: no token is drawn twice, and the clock never goes back. -/
inductive Runs (contents : Set SignedPortion) (limit : Nat) : Sponsor → Prop
  | start {core : Core} {now : Instant} (rooted : Core.Rooted contents core) : Runs contents limit ⟨core, [], now, [], []⟩
  | createInvite {σ : Sponsor} {Endpoint : Type} {endpoint : Option Endpoint} {keyId : KeyId} {drawn : Option Token} {weight : UInt32} {ttl : Nat}
    (before : Runs contents limit σ) (distinct : ∀ i ∈ σ.issued, drawn ≠ some i.invite.token) :
    Runs contents limit (σ.createInvite limit endpoint keyId drawn weight ttl).2
  | redeemInvite {σ : Sponsor} {token : Token} (before : Runs contents limit σ) :
    Runs contents limit (σ.redeemInvite token).2
  | insert {σ : Sponsor} {envelopes : List Envelope} (before : Runs contents limit σ)
    (content : ∀ e ∈ envelopes, e.toSignedPortion ∈ contents) : Runs contents limit (σ.insert envelopes)
  | compact {σ : Sponsor} {cutoff : Option StoredAt} {keep : ℕ+} {minPrune : Nat} (before : Runs contents limit σ) :
    Runs contents limit (σ.compact cutoff keep minPrune)
  | tick {σ : Sponsor} {now : Instant} {clock : StoredAt} (before : Runs contents limit σ) (later : σ.now ≤ now) :
    Runs contents limit { σ with now, core := { σ.core with storage := { σ.core.storage with clock } } }

end Sponsor

/-! ## What the book keeps -/

theorem Token.matches_iff {a b : Token} : a.matches b = true ↔ a = b := by
  have hxor : a.bytes ^^^ b.bytes = 0 ↔ a.bytes = b.bytes := BitVec.xor_eq_zero_iff
  unfold Token.matches
  rw [beq_iff_eq, hxor]
  constructor
  · intro h
    cases a; cases b; exact congrArg Token.mk h
  · rintro rfl; rfl

namespace Invites

variable {pending : List Pending} {token : Token} {now : Instant}

theorem mem_prune {p : Pending} : p ∈ prune pending now ↔ p ∈ pending ∧ now < p.expires := by
  simp [prune]

theorem tokens_prune (h : (pending.map (·.token)).Nodup) : ((prune pending now).map (·.token)).Nodup :=
  h.sublist (List.filter_sublist.map _)

/-- The place found is one the token matches. -/
theorem find_eq_some {i : Nat} (h : find pending token = some i) : ∃ p, pending[i]? = some p ∧ p.token = token := by
  have hfold : ∀ (l : List (Pending × Nat)) (found : Option Nat),
      l.foldl (fun found p => if p.1.token.matches token then some p.2 else found) found = some i →
        found = some i ∨ ∃ p, (p, i) ∈ l ∧ p.token = token := by
    intro l
    induction l with
    | nil => exact fun _ h => .inl h
    | cons e l ih =>
      intro found h
      rw [List.foldl_cons] at h
      rcases ih _ h with h | ⟨p, hp, htoken⟩
      · split at h
        · rename_i hmatch
          obtain rfl := Option.some.inj h
          exact .inr ⟨e.1, List.mem_cons_self, Token.matches_iff.1 hmatch⟩
        · exact .inl h
      · exact .inr ⟨p, List.mem_cons_of_mem _ hp, htoken⟩
  rcases hfold _ none h with h | ⟨p, hp, htoken⟩
  · cases h
  · exact ⟨p, List.mk_mem_zipIdx_iff_getElem?.1 hp, htoken⟩

/-- A redeem that succeeds names a pending invite that is still good, and takes it out. -/
theorem redeem_eq_ok {weight : UInt32} (h : (redeem pending token now).1 = .ok weight) :
    ∃ p ∈ pending, p.token = token ∧ now < p.expires ∧ weight = p.weight ∧
      ((pending.map (·.token)).Nodup → ∀ q ∈ (redeem pending token now).2, q.token ≠ token) := by
  unfold redeem at h ⊢
  cases hfind : find pending token with
  | none => simp only [hfind] at h; cases h
  | some i =>
    obtain ⟨p, hp, htoken⟩ := find_eq_some hfind
    simp only [hfind, hp] at h ⊢
    split at h
    · cases h
    · rename_i hexp
      obtain ⟨hi, rfl⟩ := List.getElem?_eq_some_iff.1 hp
      refine ⟨_, List.getElem_mem hi, htoken, Nat.lt_of_not_le hexp, (Except.ok.inj h).symm, fun hnodup q hq heq => ?_⟩
      have hmem : token ∈ (pending.map (·.token)).eraseIdx i := by
        rw [List.eraseIdx_map, ← heq]
        exact List.mem_map_of_mem (mem_prune.1 hq).1
      have hi' : i < (pending.map (·.token)).length := by simpa using hi
      have hget : (pending.map (·.token))[i] = token := by rw [List.getElem_map]; exact htoken
      rw [← hnodup.erase_getElem i hi', hget] at hmem
      exact hnodup.not_mem_erase hmem

/-- What a redeem leaves was pending before. -/
theorem redeem_sublist : ((redeem pending token now).2).Sublist pending := by
  unfold redeem
  cases find pending token with
  | none => exact List.filter_sublist
  | some i =>
    dsimp only
    cases pending[i]? with
    | none => exact List.filter_sublist
    | some p => exact List.filter_sublist.trans (List.eraseIdx_sublist _ _)

theorem mem_pinnedRoots {p : Pending} (hp : p ∈ pending) (hexp : now < p.expires) : p.root ∈ pinnedRoots pending now := by
  unfold pinnedRoots
  rw [ExtTreeSet.mem_ofList, List.contains_iff_mem]
  exact List.mem_map_of_mem (List.mem_filter.2 ⟨hp, by simpa using hexp⟩)

end Invites

/-! ## Runs -/

namespace Sponsor

variable [Externals] {contents : Set SignedPortion} {limit : Nat} {σ : Sponsor}

/-- What every state of a run satisfies: a pending invite is one that was issued, under a token not
welcomed yet, and while it is good its root is the core's. -/
structure Invariant (contents : Set SignedPortion) (σ : Sponsor) : Prop where
  rooted : σ.core.Rooted contents
  pending : ∀ p ∈ σ.invites, ⟨⟨p.root, p.token⟩, p.weight, p.expires⟩ ∈ σ.issued
  unredeemed : ∀ p ∈ σ.invites, p.token ∉ σ.redeemed
  promised : ∀ p ∈ σ.invites, σ.now < p.expires → p.root = σ.core.oldest
  tokens : (σ.invites.map (·.token)).Nodup
  redeemed : ∀ token ∈ σ.redeemed, ∃ i ∈ σ.issued, i.invite.token = token
  distinct : (σ.issued.map (·.invite.token)).Nodup

/-- Taking invites out of the book, for a token it no longer holds. -/
theorem Invariant.sublist (h : Invariant contents σ) {invites : List Pending} (hsub : invites.Sublist σ.invites) :
    Invariant contents { σ with invites } where
  rooted := h.rooted
  pending p hp := h.pending p (hsub.subset hp)
  unredeemed p hp := h.unredeemed p (hsub.subset hp)
  promised p hp := h.promised p (hsub.subset hp)
  tokens := h.tokens.sublist (hsub.map _)
  redeemed := h.redeemed
  distinct := h.distinct

theorem Invariant.createInvite (h : Invariant contents σ) {Endpoint : Type} {endpoint : Option Endpoint} {keyId : KeyId} {drawn : Option Token}
    {weight : UInt32} {ttl : Nat} (distinct : ∀ i ∈ σ.issued, drawn ≠ some i.invite.token) :
    Invariant contents (σ.createInvite limit endpoint keyId drawn weight ttl).2 := by
  unfold Sponsor.createInvite
  dsimp only
  split
  · exact h
  · rename_i invite hprinted
    obtain ⟨hroot, hdrawn⟩ : invite.root = σ.core.oldest ∧ drawn = some invite.token := by
      unfold Sponsor.printInvite at hprinted
      obtain ⟨_, -, hprinted⟩ := Res.bind_eq_ok hprinted
      obtain ⟨_, -, hprinted⟩ := Res.bind_eq_ok hprinted
      obtain ⟨_, -, hprinted⟩ := Res.bind_eq_ok hprinted
      obtain ⟨token, htoken, hprinted⟩ := Res.bind_eq_ok hprinted
      cases hprinted
      exact ⟨rfl, Res.okOr_eq_ok htoken⟩
    have hfresh : ∀ i ∈ σ.issued, i.invite.token ≠ invite.token := fun i hi heq => distinct i hi (by rw [heq]; exact hdrawn)
    have hold : ∀ p ∈ Invites.prune σ.invites σ.now, p ∈ σ.invites := fun p hp => (Invites.mem_prune.1 hp).1
    refine ⟨h.rooted, fun p hp => ?_, fun p hp => ?_, fun p hp hexp => ?_, ?_, fun token ht => ?_, ?_⟩
    · rcases List.mem_append.1 hp with hp | hp
      · exact List.mem_append_left _ (h.pending p (hold p hp))
      · obtain rfl := List.mem_singleton.1 hp
        refine List.mem_append_right _ (List.mem_singleton.2 ?_)
        exact congrArg (fun root => Issued.mk ⟨root, invite.token⟩ weight _) hroot.symm
    · rcases List.mem_append.1 hp with hp | hp
      · exact h.unredeemed p (hold p hp)
      · obtain rfl := List.mem_singleton.1 hp
        intro hredeemed
        obtain ⟨i, hi, htoken⟩ := h.redeemed _ hredeemed
        exact hfresh i hi htoken
    · rcases List.mem_append.1 hp with hp | hp
      · exact h.promised p (hold p hp) hexp
      · obtain rfl := List.mem_singleton.1 hp
        rfl
    · show ((Invites.prune σ.invites σ.now ++ _).map _).Nodup
      rw [List.map_append, List.map_singleton]
      refine (Invites.tokens_prune h.tokens).append (List.nodup_singleton _) fun token ht ht' => ?_
      obtain ⟨p, hp, rfl⟩ := List.mem_map.1 ht
      exact hfresh _ (h.pending p (hold p hp)) (List.mem_singleton.1 ht')
    · obtain ⟨i, hi, htoken⟩ := h.redeemed token ht
      exact ⟨i, List.mem_append_left _ hi, htoken⟩
    · show ((σ.issued ++ _).map _).Nodup
      rw [List.map_append, List.map_singleton]
      refine h.distinct.append (List.nodup_singleton _) fun token ht ht' => ?_
      obtain ⟨i, hi, rfl⟩ := List.mem_map.1 ht
      exact hfresh i hi (List.mem_singleton.1 ht')

omit [Externals] in
/-- What a welcome rests on. -/
theorem redeemInvite_eq_ok {token : Token} {w : Welcomed} (hw : (σ.redeemInvite token).1 = .ok w) :
    (Invites.redeem σ.invites token σ.now).1 = .ok w.weight ∧ σ.core.welcomeRoot = .ok (w.root, w.state) ∧
      (σ.redeemInvite token).2 =
        { σ with invites := (Invites.redeem σ.invites token σ.now).2, redeemed := σ.redeemed ++ [token] } := by
  unfold Sponsor.redeemInvite at hw ⊢
  cases hwelcome : σ.welcome (Invites.redeem σ.invites token σ.now).1 with
  | error e => simp only [hwelcome] at hw; cases hw
  | ok w' =>
    simp only [hwelcome] at hw ⊢
    obtain rfl : w' = w := Except.ok.inj hw
    unfold Sponsor.welcome at hwelcome
    obtain ⟨weight, hweight, hwelcome⟩ := Res.bind_eq_ok hwelcome
    obtain ⟨⟨root, state⟩, hroot, hwelcome⟩ := Res.bind_eq_ok hwelcome
    cases hwelcome
    exact ⟨Res.ofExcept_eq_ok hweight, Res.mapErr_eq_ok hroot, trivial⟩

theorem Invariant.redeemInvite (h : Invariant contents σ) (token : Token) :
    Invariant contents (σ.redeemInvite token).2 := by
  cases hw : (σ.redeemInvite token).1 with
  | error e =>
    have hstate : (σ.redeemInvite token).2 = { σ with invites := (Invites.redeem σ.invites token σ.now).2 } := by
      unfold Sponsor.redeemInvite at hw ⊢
      cases hwelcome : σ.welcome (Invites.redeem σ.invites token σ.now).1 with
      | error e' => simp only [hwelcome]
      | ok w => simp only [hwelcome] at hw; cases hw
    rw [hstate]
    exact h.sublist Invites.redeem_sublist
  | ok w =>
    obtain ⟨hredeem, -, hstate⟩ := redeemInvite_eq_ok hw
    obtain ⟨p, hp, htoken, -, -, hgone⟩ := Invites.redeem_eq_ok hredeem
    have hs := h.sublist (@Invites.redeem_sublist σ.invites token σ.now)
    rw [hstate]
    refine ⟨hs.rooted, hs.pending, fun q hq hmem => ?_, hs.promised, hs.tokens, fun t ht => ?_, hs.distinct⟩
    · rcases List.mem_append.1 hmem with hmem | hmem
      · exact hs.unredeemed q hq hmem
      · exact hgone h.tokens q hq (List.mem_singleton.1 hmem)
    · rcases List.mem_append.1 ht with ht | ht
      · exact h.redeemed t ht
      · rw [List.mem_singleton.1 ht]
        exact ⟨_, h.pending p hp, htoken⟩

variable (laws : DigestLaws contents)

include laws

/-- While an invite is good its root is pinned, so a pass that moves the root finds none. -/
theorem Invariant.compact (h : Invariant contents σ) (cutoff : Option StoredAt) (keep : ℕ+) (minPrune : Nat) :
    Invariant contents (σ.compact cutoff keep minPrune) := by
  obtain ⟨hrooted, hpinned⟩ := h.rooted.compactBefore laws cutoff keep minPrune (Invites.pinnedRoots σ.invites σ.now)
  refine ⟨hrooted, h.pending, h.unredeemed, fun p hp hexp => ?_, h.tokens, h.redeemed, h.distinct⟩
  have hroot := h.promised p hp hexp
  have hsame := hpinned (hroot ▸ Invites.mem_pinnedRoots hp hexp)
  show p.root = (σ.core.compactBefore _ _ _ _).2.oldest
  rw [hsame]
  exact hroot

theorem Runs.invariant (h : Runs contents limit σ) : Invariant contents σ := by
  induction h with
  | start rooted => exact ⟨rooted, nofun, nofun, nofun, List.nodup_nil, nofun, List.nodup_nil⟩
  | createInvite before distinct ih => exact ih.createInvite distinct
  | redeemInvite before ih => exact ih.redeemInvite _
  | @insert σ envelopes before content ih =>
    refine ⟨⟨.insertBatch ih.rooted.reachable content rfl, ?_⟩, ih.pending, ih.unredeemed, ih.promised, ih.tokens, ih.redeemed,
      ih.distinct⟩
    obtain ⟨W, rfl, hgood⟩ := ih.rooted.reachable.good laws
    obtain ⟨-, hroot, -⟩ := hgood.insertBatch content (r := (σ.core.chain.insertBatch envelopes σ.core.storage).1) rfl
    exact ih.rooted.root.trans hroot.symm
  | compact before ih => exact ih.compact laws _ _ _
  | tick before later ih =>
    exact ⟨⟨.tick ih.rooted.reachable _, ih.rooted.root⟩, ih.pending, ih.unredeemed,
      fun p hp hexp => ih.promised p hp (Nat.lt_of_le_of_lt later hexp), ih.tokens, ih.redeemed, ih.distinct⟩

/-- In any run, a welcome answers an invite that was issued and not welcomed before, strictly before
its expiry and at its weight, with the root it printed and the version standing there. -/
theorem Runs.invite_kept (h : Runs contents limit σ) {token : Token} {w : Welcomed} (hw : (σ.redeemInvite token).1 = .ok w) :
    (token ∉ σ.redeemed ∧ token ∈ (σ.redeemInvite token).2.redeemed) ∧
      ∃ i ∈ σ.issued, i.invite.token = token ∧ (∀ j ∈ σ.issued, j.invite.token = token → j = i) ∧
        σ.now < i.expires ∧ w.weight = i.weight ∧ w.root.digest = .ok i.invite.root ∧
        ∃ v, σ.core.storage.versions[i.invite.root]? = some v ∧ w.state = match w.root.payload with
          | .init _ => none
          | _ => some ⟨v⟩ := by
  have hi := h.invariant laws
  obtain ⟨hredeem, hroot, hstate⟩ := redeemInvite_eq_ok hw
  obtain ⟨p, hp, htoken, hexp, hweight, -⟩ := Invites.redeem_eq_ok hredeem
  obtain ⟨hdigest, v, hv, hstanding⟩ := hi.rooted.welcomeRoot laws hroot
  have hpromised := hi.promised p hp hexp
  refine ⟨⟨?_, ?_⟩, _, hi.pending p hp, htoken, fun j hj hjt => ?_, hexp, hweight, ?_, v, ?_, hstanding⟩
  · rw [← htoken]; exact hi.unredeemed p hp
  · rw [hstate]; exact List.mem_append_right _ (List.mem_singleton.2 rfl)
  · exact List.inj_on_of_nodup_map hi.distinct hj (hi.pending p hp) (hjt.trans htoken.symm)
  · rw [hpromised]; exact hdigest
  · rw [hpromised]; exact hv

end Sponsor

end IrohLotus.Lotusd

/-! ## An invite over a compaction -/

namespace IrohLotus.Lotusd

open Std Outcome IrohLotus.Wire IrohLotus.Wire.Sample IrohLotus.Storage IrohLotus.State

/-- A sponsor at genesis that took in two envelopes and pruned all but the last. -/
def pruned : Sponsor :=
  ((Sponsor.mk ⟨⟨genesisDigest, ⟨genesisDigest⟩⟩, genesisStore, genesisDigest⟩ [] 0 [] []).insert [first, second]).compact
    (some 1) 1 1

/-- It issued an invite, took in another envelope and tried to prune again. -/
def sponsoring : Sponsor := ((pruned.createInvite 100 (some ()) ⟨0⟩ (some ⟨7⟩) 5 60).2.insert [third]).compact (some 1) 1 1

theorem invite_kept_sponsoring : ∃ w, (sponsoring.redeemInvite ⟨7⟩).1 = .ok w ∧ ⟨7⟩ ∉ sponsoring.redeemed ∧
    ∃ i ∈ sponsoring.issued, i.invite.token = ⟨7⟩ ∧ w.root.digest = .ok i.invite.root := by
  have hmem : ∀ e ∈ [first, second], e.toSignedPortion ∈ table.map Prod.fst := by decide +kernel
  have hmem' : ∀ e ∈ [third], e.toSignedPortion ∈ table.map Prod.fst := by decide +kernel
  have hfresh : ∀ i ∈ pruned.issued, some (Token.mk 7) ≠ some i.invite.token := by
    intro i hi
    cases hi
  have hruns : Sponsor.Runs Sample.contents 100 sponsoring :=
    .compact (.insert (.createInvite (.compact (.insert (.start ⟨reachable_genesisStore, rfl⟩) hmem)) hfresh) hmem')
  have hok : (sponsoring.redeemInvite ⟨7⟩).1.toBool = true := by decide +kernel
  cases hw : (sponsoring.redeemInvite ⟨7⟩).1 with
  | error e => rw [hw] at hok; cases hok
  | ok w =>
    obtain ⟨⟨hnew, -⟩, i, hi, htoken, -, -, -, hroot, -⟩ := hruns.invite_kept sample_laws hw
    exact ⟨w, rfl, hnew, i, hi, htoken, hroot⟩

end IrohLotus.Lotusd
