/-
The daemon's core (`lotusd::core`) over a store none of whose operations fails: the chain with the
root it reopens from, the compaction pass that picks its own cut, and what a joining node is handed.
-/
import IrohLotus.State.Replay
import IrohLotus.State.Reach

namespace IrohLotus.Lotusd

open Std Outcome Forest IrohLotus.Wire IrohLotus.Storage IrohLotus.State

/-! ## The model -/

/-- A chain, its store, and the digest the oldest-envelope file names. -/
structure Core where
  chain : Chain
  storage : MemStorage
  oldest : EnvelopeDigest

/-- What a compaction pass did to the log. -/
structure Compacted where
  source : EnvelopeDigest
  target : EnvelopeDigest
  pruned : Nat

/-- The canonical path newest first, with arrival times, as far down as the log reaches. -/
def heldPath (s : MemStorage) : Nat → Option EnvelopeDigest → Res Error (List (EnvelopeDigest × StoredAt))
  | 0, _ => .error .hang
  | _ + 1, none => pure []
  | fuel + 1, some digest =>
    match s.loggedEnvelope digest with
    | none => pure []
    | some entry => do
      let rest ← heldPath s fuel entry.envelope.prev
      pure ((digest, entry.storedAt) :: rest)

/-- The loop of `choose_cut` from `index` on, where `newer` is the digest just above. -/
def chooseLoop (keep : Nat) (cutoff : StoredAt) :
    Nat → EnvelopeDigest → ExtTreeSet EnvelopeDigest → List (EnvelopeDigest × StoredAt) → Option (EnvelopeDigest × Nat)
  | _, _, _, [] => none
  | index, newer, unseen, (digest, storedAt) :: path =>
    let pins := unseen.contains digest
    let unseen := unseen.erase digest
    if pins || !unseen.isEmpty || decide (index < keep) || decide (storedAt ≥ cutoff) then
      chooseLoop keep cutoff (index + 1) digest unseen path
    else some (newer, path.length + 1)

/-- Where compaction cuts the canonical path, and how many envelopes fall past the cut. The head is
always kept, so there is a digest above any that is not. -/
def chooseCut (path : List (EnvelopeDigest × StoredAt)) (keep : ℕ+) (cutoff : Option StoredAt)
    (pinned : ExtTreeSet EnvelopeDigest) : Option (EnvelopeDigest × Nat) := do
  let cutoff ← cutoff
  let (head, _) ← path.head?
  chooseLoop keep cutoff 0 head pinned path

namespace Core

variable [Externals]

def head (core : Core) : EnvelopeDigest := core.chain.head

def root (core : Core) : EnvelopeDigest := core.oldest

/-- Prunes what is past the retention policy; the new root is recorded before anything is pruned. -/
def compactBefore (core : Core) (cutoff : Option StoredAt) (keep : ℕ+) (minPrune : Nat)
    (pinned : ExtTreeSet EnvelopeDigest) : Res Error Compacted × Core :=
  let unchanged : Compacted := ⟨core.oldest, core.oldest, 0⟩
  match heldPath core.storage (core.storage.envelopes.size + 2) (some core.head) with
  | .error e => (.error e, core)
  | .ok path =>
    match chooseCut path keep cutoff pinned with
    | none => (.ok unchanged, core)
    | some (cut, eligible) =>
      if eligible < minPrune then (.ok unchanged, core)
      else
        match core.chain.compact cut core.storage with
        | (.ok pruned, chain, storage) => (.ok ⟨core.oldest, cut, pruned⟩, ⟨chain, storage, cut⟩)
        | (.error e, chain, storage) => (.error e, ⟨chain, storage, cut⟩)

/-- The envelope this node's chain is rooted at. -/
def rootEnvelope (core : Core) : Res Error Envelope :=
  Res.expect (core.storage.envelope core.oldest) "the oldest-envelope file names an envelope the store holds"

/-- What a joining node is handed: the root, and the state standing at it where it is not the `Init`. -/
def welcomeRoot (core : Core) : Res Error (Envelope × Option FullCheckpoint) := do
  let root ← core.rootEnvelope
  match root.payload with
  | .init _ => pure (root, none)
  | _ => do
    let ledger ← Ledger.open core.storage core.oldest
    let state ← ledger.checkpoint core.storage
    pure (root, some state)

/-- Why this node's signature alone would not carry an envelope. -/
inductive CannotSignAlone where
  | weight (own min : UInt32)
  | signatures (min : UInt32)

/-- Whether this node's key is enough for the ledger to accept what it signs. -/
def signsAlone (core : Core) (keyId : KeyId) : Res Error (Except CannotSignAlone Unit) := do
  let ledger := core.chain.ledger
  let keys ← (ledger.trustedKeys core.storage).mapErr .apply
  let weight := keys[keyId]?.elim 0 Key.weight
  let minWeight ← (ledger.minEnvelopeWeight core.storage).mapErr .apply
  let minSignatures ← (ledger.minEnvelopeSignatures core.storage).mapErr .apply
  if weight < minWeight then pure (.error (.weight weight minWeight))
  else if minSignatures > 1 then pure (.error (.signatures minSignatures))
  else pure (.ok ())

end Core

/-! ## The cut -/

section Cut

variable {s : MemStorage} {keep index : Nat} {cutoff : StoredAt} {newer cut root : EnvelopeDigest}
  {unseen : ExtTreeSet EnvelopeDigest} {eligible : Nat}

/-- The cut is the digest above some entry. -/
theorem chooseLoop_mem : ∀ {path : List (EnvelopeDigest × StoredAt)} {index : Nat} {newer : EnvelopeDigest}
    {unseen : ExtTreeSet EnvelopeDigest}, chooseLoop keep cutoff index newer unseen path = some (cut, eligible) →
      cut = newer ∨ cut ∈ path.map Prod.fst
  | [], _, _, _, h => by cases h
  | (digest, storedAt) :: path, index, newer, unseen, h => by
    rw [chooseLoop] at h
    split at h
    · rcases chooseLoop_mem h with rfl | hcut
      · exact .inr List.mem_cons_self
      · exact .inr (List.mem_cons_of_mem _ hcut)
    · cases h; exact .inl rfl

theorem chooseCut_mem {path : List (EnvelopeDigest × StoredAt)} {keep : ℕ+} {cutoff : Option StoredAt}
    {pinned : ExtTreeSet EnvelopeDigest} (h : chooseCut path keep cutoff pinned = some (cut, eligible)) :
    cut ∈ path.map Prod.fst := by
  unfold chooseCut at h
  obtain ⟨cutoff, -, h⟩ := Option.bind_eq_some_iff.1 h
  obtain ⟨⟨head, at'⟩, hhead, h⟩ := Option.bind_eq_some_iff.1 h
  have hmem : head ∈ path.map Prod.fst := List.mem_map.2 ⟨_, List.mem_of_mem_head? hhead, rfl⟩
  rcases chooseLoop_mem h with rfl | hcut
  · exact hmem
  · exact hcut

/-- A pinned digest at the end of the path, and nowhere above it, keeps the whole path. -/
theorem chooseLoop_pinned {at' : StoredAt} : ∀ {pre : List (EnvelopeDigest × StoredAt)} {index : Nat}
    {newer : EnvelopeDigest} {unseen : ExtTreeSet EnvelopeDigest}, root ∈ unseen → (∀ e ∈ pre, e.1 ≠ root) →
      chooseLoop keep cutoff index newer unseen (pre ++ [(root, at')]) = none
  | [], index, newer, unseen, hroot, _ => by
    have hpins : unseen.contains root = true := ExtTreeSet.mem_iff_contains.1 hroot
    simp [chooseLoop, hpins]
  | (digest, storedAt) :: pre, index, newer, unseen, hroot, hpre => by
    have hne : digest ≠ root := hpre _ List.mem_cons_self
    have hroot' : root ∈ unseen.erase digest := by
      rw [ExtTreeSet.mem_erase]
      exact ⟨fun heq => hne (Std.compare_eq_iff_eq.1 heq), hroot⟩
    have hnonempty : (unseen.erase digest).isEmpty = false := by
      refine ExtTreeSet.isEmpty_eq_false_iff.2 fun hempty => ?_
      rw [hempty] at hroot'
      simp at hroot'
    rw [List.cons_append, chooseLoop]
    simp only [hnonempty, Bool.not_false, Bool.or_true, Bool.true_or, if_true]
    exact chooseLoop_pinned hroot' fun e he => hpre e (List.mem_cons_of_mem _ he)

theorem chooseCut_pinned {pre : List (EnvelopeDigest × StoredAt)} {at' : StoredAt} {keep : ℕ+} {cutoff : Option StoredAt}
    {pinned : ExtTreeSet EnvelopeDigest} (hroot : root ∈ pinned) (hpre : ∀ e ∈ pre, e.1 ≠ root) :
    chooseCut (pre ++ [(root, at')]) keep cutoff pinned = none := by
  unfold chooseCut
  cases cutoff with
  | none => rfl
  | some cutoff =>
    cases pre with
    | nil => exact chooseLoop_pinned hroot hpre
    | cons e pre => exact chooseLoop_pinned hroot hpre

/-- The cut a pass picks has an entry below it. -/
theorem chooseLoop_next {keep : Nat} {cutoff : StoredAt} {cut : EnvelopeDigest} {eligible : Nat} :
    ∀ {path : List (EnvelopeDigest × StoredAt)} {index : Nat} {newer : EnvelopeDigest} {unseen : ExtTreeSet EnvelopeDigest},
      chooseLoop keep cutoff index newer unseen path = some (cut, eligible) →
        ∃ pre x post, newer :: path.map Prod.fst = pre ++ cut :: x :: post
  | [], _, _, _, h => by cases h
  | (digest, storedAt) :: path, index, newer, unseen, h => by
    rw [chooseLoop] at h
    split at h
    · obtain ⟨pre, x, post, hsplit⟩ := chooseLoop_next h
      exact ⟨newer :: pre, x, post, by rw [List.map_cons, hsplit]; rfl⟩
    · cases h
      exact ⟨[], digest, path.map Prod.fst, rfl⟩

theorem chooseCut_next {path : List (EnvelopeDigest × StoredAt)} {keep : ℕ+} {cutoff : Option StoredAt}
    {pinned : ExtTreeSet EnvelopeDigest} {cut : EnvelopeDigest} {eligible : Nat}
    (h : chooseCut path keep cutoff pinned = some (cut, eligible)) :
    ∃ pre x post, path.map Prod.fst = pre ++ cut :: x :: post := by
  unfold chooseCut at h
  obtain ⟨cutoff, -, h⟩ := Option.bind_eq_some_iff.1 h
  obtain ⟨⟨head, at'⟩, hhead, h⟩ := Option.bind_eq_some_iff.1 h
  cases path with
  | nil => cases hhead
  | cons entry path =>
    cases hhead
    -- the head is always kept
    have hkeep : 0 < (keep : Nat) := keep.pos
    simp only [chooseLoop, hkeep, decide_true, Bool.or_true, Bool.true_or, if_true] at h
    exact chooseLoop_next h

end Cut

/-! ## The held path -/

/-- Each entry of the held path is the parent of the one before. -/
theorem heldPath_isChain {s : MemStorage} : ∀ {fuel : Nat} {d : EnvelopeDigest} {path : List (EnvelopeDigest × StoredAt)},
    heldPath s fuel (some d) = .ok path → (path.map Prod.fst).IsChain fun c p => s.parent c = some p
  | 0, _, _, h => by cases h
  | fuel + 1, d, path, h => by
    cases hentry : s.loggedEnvelope d with
    | none =>
      simp only [heldPath, hentry] at h
      cases h
      exact List.isChain_nil
    | some entry =>
      simp only [heldPath, hentry] at h
      obtain ⟨rest, hrest, h⟩ := Res.bind_eq_ok h
      cases h
      have hparent : s.parent d = entry.envelope.prev :=
        s.parent_of_envelope (by rw [MemStorage.envelope, hentry]; rfl)
      cases hprev : entry.envelope.prev with
      | none =>
        rw [hprev] at hrest
        cases fuel with
        | zero => cases hrest
        | succ fuel => cases hrest; exact List.isChain_singleton d
      | some p =>
        rw [hprev] at hrest hparent
        have ih := heldPath_isChain hrest
        cases rest with
        | nil => exact List.isChain_singleton d
        | cons first rest =>
          have hfirst : first.1 = p := by
            cases fuel with
            | zero => cases hrest
            | succ fuel =>
              cases hp : s.loggedEnvelope p with
              | none => simp only [heldPath, hp] at hrest; cases hrest
              | some entry' =>
                simp only [heldPath, hp] at hrest
                obtain ⟨rest', -, hrest⟩ := Res.bind_eq_ok hrest
                cases hrest; rfl
          exact List.isChain_cons_cons.2 ⟨by rw [hfirst]; exact hparent, ih⟩

section HeldPath

variable [Externals] {W : World} {base : EnvelopeDigest} {s : MemStorage}

/-- The path read off a coherent log goes down to its base. -/
theorem heldPath_eq_ok (hco : Coherent W base s) : ∀ {fuel : Nat} {d : EnvelopeDigest} {path : List (EnvelopeDigest × StoredAt)},
    s.Stored d → heldPath s fuel (some d) = .ok path →
      (∃ pre at', path = pre ++ [(base, at')] ∧ ∀ e ∈ pre, e.1 ≠ base) ∧
        ∀ x ∈ path.map Prod.fst, s.Stored x ∧ Desc s.parent x d
  | 0, _, _, _, h => by cases h
  | fuel + 1, d, path, hd, h => by
    obtain ⟨e, he⟩ := hd
    obtain ⟨entry, hentry, rfl⟩ := Option.map_eq_some_iff.1 he
    have hparent : s.parent d = entry.envelope.prev := s.parent_of_envelope he
    simp only [heldPath, hentry] at h
    obtain ⟨rest, hrest, h⟩ := Res.bind_eq_ok h
    cases h
    by_cases hbase : d = base
    · -- nothing below the base is in the log
      subst hbase
      have hnil : rest = [] := by
        rw [← hparent] at hrest
        cases hp : s.parent d with
        | none =>
          rw [hp] at hrest
          cases fuel with
          | zero => cases hrest
          | succ fuel => cases hrest; rfl
        | some p =>
          rw [hp] at hrest
          have hno : s.loggedEnvelope p = none := by
            cases hl : s.loggedEnvelope p with
            | none => rfl
            | some entry' =>
              exact absurd hp (hco.not_desc_base ⟨entry'.envelope, by rw [MemStorage.envelope, hl]; rfl⟩)
          cases fuel with
          | zero => cases hrest
          | succ fuel =>
            simp only [heldPath, hno] at hrest
            cases hrest; rfl
      subst hnil
      refine ⟨⟨[], entry.storedAt, rfl, List.forall_mem_nil _⟩, fun x hx => ?_⟩
      obtain rfl := List.mem_singleton.1 hx
      exact ⟨⟨_, he⟩, Desc.refl⟩
    · obtain ⟨p, hp, hps⟩ := hco.exists_parent ⟨_, he⟩ hbase
      rw [← hparent, hp] at hrest
      obtain ⟨⟨pre, at', rfl, hpre⟩, hmem⟩ := heldPath_eq_ok hco hps hrest
      refine ⟨⟨(d, entry.storedAt) :: pre, at', rfl, ?_⟩, fun x hx => ?_⟩
      · intro e' he'
        rcases List.mem_cons.1 he' with rfl | he'
        · exact hbase
        · exact hpre e' he'
      · rcases List.mem_cons.1 hx with rfl | hx
        · exact ⟨⟨_, he⟩, Desc.refl⟩
        · obtain ⟨hxs, hxp⟩ := hmem x hx
          exact ⟨hxs, hxp.child hp⟩

end HeldPath

/-! ## Rooted cores -/

namespace Core

variable [Externals] {contents : Set SignedPortion} {core : Core}

/-- A core whose chain came about by operations that went through, reopening from the chain's root. -/
structure Rooted (contents : Set SignedPortion) (core : Core) : Prop where
  reachable : Reachable contents core.chain core.storage
  root : core.oldest = core.chain.root

variable (laws : DigestLaws contents)

include laws

/-- A pass keeps the core rooted, and one that has the root pinned changes nothing. -/
theorem Rooted.compactBefore (h : Rooted contents core) (cutoff : Option StoredAt) (keep : ℕ+) (minPrune : Nat)
    (pinned : ExtTreeSet EnvelopeDigest) : Rooted contents (core.compactBefore cutoff keep minPrune pinned).2 ∧
      (core.oldest ∈ pinned → (core.compactBefore cutoff keep minPrune pinned).2 = core) := by
  obtain ⟨W, rfl, hgood⟩ := h.reachable.good laws
  unfold Core.compactBefore
  cases hpath : heldPath core.storage (core.storage.envelopes.size + 2) (some core.head) with
  | error e => exact ⟨h, fun _ => rfl⟩
  | ok path =>
    obtain ⟨⟨pre, at', hsplit, hpre⟩, hmem⟩ := heldPath_eq_ok hgood.coherent hgood.head_stored hpath
    dsimp only
    cases hcut : chooseCut path keep cutoff pinned with
    | none => exact ⟨h, fun _ => rfl⟩
    | some found =>
      obtain ⟨cut, eligible⟩ := found
      dsimp only
      refine ⟨?_, fun hpin => ?_⟩
      · split
        · exact h
        · obtain ⟨hstored, hdesc⟩ := hmem cut (chooseCut_mem hcut)
          have hlog : core.storage.parent core.chain.root ≠ some cut := hgood.coherent.not_desc_base hstored
          rcases Chain.compact_cases hgood.coherent.indexed hgood.acyclic fun hd =>
              hgood.recoverable (hgood.canonical_of_desc hlog hd) with ⟨hno, -⟩ | ⟨-, n, t, -, -, hrun⟩
          · exact absurd hdesc hno
          · simp only [hrun]
            exact ⟨.compact h.reachable hlog hrun, rfl⟩
      · rw [h.root] at hpin
        rw [hsplit, chooseCut_pinned hpin hpre] at hcut
        cases hcut

/-- A joining node is handed the root itself, and the version standing there unless it is an `Init`. -/
theorem Rooted.welcomeRoot (h : Rooted contents core) {e : Envelope} {state : Option FullCheckpoint}
    (hw : core.welcomeRoot = .ok (e, state)) : e.digest = .ok core.oldest ∧
      ∃ v, core.storage.versions[core.oldest]? = some v ∧ state = match e.payload with
        | .init _ => none
        | _ => some ⟨v⟩ := by
  obtain ⟨W, rfl, hgood⟩ := h.reachable.good laws
  unfold Core.welcomeRoot Core.rootEnvelope at hw
  obtain ⟨root, hroot, hw⟩ := Res.bind_eq_ok hw
  have hroot := Res.expect_eq_ok hroot
  obtain ⟨v, hv⟩ := hgood.coherent.base_held
  rw [← h.root] at hv
  have hdigest := (hgood.coherent.content _ _ hroot).2
  have hopen : Ledger.open core.storage core.oldest = .ok ⟨core.oldest⟩ := by
    have hcontains : core.storage.containsVersion core.oldest = true :=
      ExtTreeMap.mem_iff_contains.1 (ExtTreeMap.mem_iff_isSome_getElem?.2 (by rw [hv]; rfl))
    unfold Ledger.open
    rw [if_pos hcontains]; rfl
  have hstate : (Ledger.mk core.oldest).checkpoint core.storage = .ok ⟨v⟩ := Ledger.checkpoint_eq_ok hv
  cases hmsg : root.payload with
  | init msg =>
    simp only [hmsg] at hw
    cases hw
    exact ⟨hdigest, v, hv, by simp only [hmsg]⟩
  | setNamespace _ | setNamespaceKey _ | amendNamespaceKey _ | deleteNamespace _ =>
    simp only [hmsg, hopen, Res.ok_bind, hstate] at hw
    cases hw
    exact ⟨hdigest, v, hv, by simp only [hmsg]⟩

end Core

end IrohLotus.Lotusd
