/-
What a locator promises. The walk it is sampled from follows parents, so it ends at a digest that has
none: on a log that reaches down to its `Init` that is the `Init`, and on one that was pruned or
adopted it is the digest the root's `prev` names, which the log does not hold. The last entry is
always sampled, so the promise is kept exactly by the cores that are rooted at an `Init`.
-/
import IrohLotus.Lotusd.TwoWay

namespace IrohLotus.Lotusd

open Std Outcome Forest IrohLotus.Wire IrohLotus.Storage IrohLotus.State IrohLotus.Sync

/-! ## Reached cores -/

section Reached

variable [Externals]

/-- The cores a daemon comes to: opened from an `Init` or adopted from a checkpoint, then moved on
and compacted by passes that pick their own cut. -/
inductive Core.Reached (contents : Set SignedPortion) : Core → Prop
  | init {clock : StoredAt} {e : Envelope} {chain : Chain} {storage : MemStorage} (content : e.toSignedPortion ∈ contents)
    (run : Chain.init e (MemStorage.empty clock) = (.ok chain, storage)) : Reached contents ⟨chain, storage, chain.root⟩
  | adopt {clock : StoredAt} {e : Envelope} {state : FullCheckpoint} {chain : Chain} {storage : MemStorage}
    (content : e.toSignedPortion ∈ contents)
    (run : Chain.adopt e state (MemStorage.empty clock) = (.ok chain, storage)) : Reached contents ⟨chain, storage, chain.root⟩
  | moves {core core' : Core} (h : Reached contents core) (move : core.Moves contents core') : Reached contents core'
  | compactBefore {core : Core} (h : Reached contents core) (cutoff : Option StoredAt) (keep : ℕ+) (minPrune : Nat)
    (pinned : ExtTreeSet EnvelopeDigest) : Reached contents (core.compactBefore cutoff keep minPrune pinned).2

/-- The root of the chain is an `Init`. -/
def Core.InitRooted (core : Core) : Prop := ∃ e msg, core.storage.envelope core.oldest = some e ∧ e.payload = .init msg

variable {contents : Set SignedPortion} {core : Core}

/-- A pass that finds enough past its cut compacts the log to it. -/
theorem Core.Rooted.compactBefore_run (laws : DigestLaws contents) (h : core.Rooted contents) {cutoff : Option StoredAt}
    {keep : ℕ+} {minPrune : Nat} {pinned : ExtTreeSet EnvelopeDigest} {path : List (EnvelopeDigest × StoredAt)}
    (hpath : heldPath core.storage (core.storage.envelopes.size + 2) (some core.head) = .ok path) {cut : EnvelopeDigest}
    {eligible : Nat} (hcut : chooseCut path keep cutoff pinned = some (cut, eligible)) (enough : ¬ eligible < minPrune) :
    (∃ p, core.storage.parent cut = some p) ∧ (core.compactBefore cutoff keep minPrune pinned).2.oldest = cut ∧
      Chain.CompactedTo core.storage cut core.head (core.compactBefore cutoff keep minPrune pinned).2.storage := by
  obtain ⟨W, rfl, hgood⟩ := h.reachable.good laws
  obtain ⟨-, hmem⟩ := heldPath_eq_ok hgood.coherent hgood.head_stored hpath
  obtain ⟨hstored, hdesc⟩ := hmem cut (chooseCut_mem hcut)
  obtain ⟨pre, x, post, hsplit⟩ := chooseCut_next hcut
  have hparent : core.storage.parent cut = some x := by
    have hchain := heldPath_isChain hpath
    rw [hsplit] at hchain
    exact (List.isChain_cons_cons.1 (List.isChain_append.1 hchain).2.1).1
  have hlog : core.storage.parent core.chain.root ≠ some cut := hgood.coherent.not_desc_base hstored
  unfold Core.compactBefore
  simp only [hpath, hcut, if_neg enough]
  rcases Chain.compact_cases hgood.coherent.indexed hgood.acyclic fun hd =>
      hgood.recoverable (hgood.canonical_of_desc hlog hd) with ⟨hno, -⟩ | ⟨-, n, t, hct, -, hrun⟩
  · exact absurd hdesc hno
  · rw [hrun]
    exact ⟨⟨x, hparent⟩, rfl, hct⟩

omit [Externals] in
/-- A pass that finds no cut, or too little past it, leaves the core as it was. -/
theorem Core.compactBefore_idle (core : Core) {cutoff : Option StoredAt} {keep : ℕ+} {minPrune : Nat}
    {pinned : ExtTreeSet EnvelopeDigest} {path : List (EnvelopeDigest × StoredAt)}
    (hpath : heldPath core.storage (core.storage.envelopes.size + 2) (some core.head) = .ok path)
    (idle : ∀ cut eligible, chooseCut path keep cutoff pinned = some (cut, eligible) → eligible < minPrune) :
    (core.compactBefore cutoff keep minPrune pinned).2 = core := by
  unfold Core.compactBefore
  simp only [hpath]
  cases hcut : chooseCut path keep cutoff pinned with
  | none => rfl
  | some found => simp only [if_pos (idle found.1 found.2 hcut)]

/-- A pass leaves the core as it was, or cuts its log above an envelope that was in it. -/
theorem Core.Rooted.compactBefore_trims (laws : DigestLaws contents) (h : core.Rooted contents) (cutoff : Option StoredAt)
    (keep : ℕ+) (minPrune : Nat) (pinned : ExtTreeSet EnvelopeDigest) :
    (core.compactBefore cutoff keep minPrune pinned).2 = core ∨
      ∃ cut, (∃ p, core.storage.parent cut = some p) ∧ (core.compactBefore cutoff keep minPrune pinned).2.oldest = cut ∧
        Chain.CompactedTo core.storage cut core.head (core.compactBefore cutoff keep minPrune pinned).2.storage := by
  cases hpath : heldPath core.storage (core.storage.envelopes.size + 2) (some core.head) with
  | error e =>
    unfold Core.compactBefore
    exact .inl (by simp only [hpath])
  | ok path =>
    by_cases idle : ∀ cut eligible, chooseCut path keep cutoff pinned = some (cut, eligible) → eligible < minPrune
    · exact .inl (core.compactBefore_idle hpath idle)
    · push Not at idle
      obtain ⟨cut, eligible, hcut, enough⟩ := idle
      exact .inr ⟨cut, h.compactBefore_run laws hpath hcut (Nat.not_lt.2 enough)⟩

/-- A pass leaves the core as it was, or moves the root above an envelope that was in the log. -/
theorem Core.Rooted.compactBefore_cases (laws : DigestLaws contents) (h : core.Rooted contents) (cutoff : Option StoredAt)
    (keep : ℕ+) (minPrune : Nat) (pinned : ExtTreeSet EnvelopeDigest) :
    (core.compactBefore cutoff keep minPrune pinned).2 = core ∨
      ∃ p, (core.compactBefore cutoff keep minPrune pinned).2.storage.parent
        (core.compactBefore cutoff keep minPrune pinned).2.oldest = some p := by
  rcases h.compactBefore_trims laws cutoff keep minPrune pinned with hsame | ⟨cut, ⟨p, hp⟩, holdest, hct⟩
  · exact .inl hsame
  · exact .inr ⟨p, by rw [holdest, hct.keeps.parent_kept Desc.refl]; exact hp⟩

omit [Externals] in
theorem allHeld_single {clock : StoredAt} {d : EnvelopeDigest} {e : Envelope} {v : Version} :
    AllHeld (((MemStorage.empty clock).install d v).putEnvelope d e) := by
  rintro x ⟨e', he'⟩
  rw [MemStorage.envelope_putEnvelope] at he'
  split at he'
  · rename_i heq
    subst heq
    exact ⟨v, by rw [MemStorage.versions_putEnvelope, MemStorage.versions_install, if_pos rfl]⟩
  · simp [MemStorage.empty, MemStorage.envelope, MemStorage.loggedEnvelope, MemStorage.install] at he'

/-- A reached core whose root names no parent was never compacted, so it has every version. -/
theorem Core.Reached.rooted (laws : DigestLaws contents) (h : core.Reached contents) :
    core.Rooted contents ∧ (core.storage.parent core.oldest = none → AllHeld core.storage) := by
  induction h with
  | init content run =>
    refine ⟨⟨.init content run, rfl⟩, fun _ => ?_⟩
    obtain ⟨_, _, _, -, -, -, -, -, rfl⟩ := init_eq_ok run
    exact allHeld_single
  | adopt content run =>
    refine ⟨⟨.adopt content run, rfl⟩, fun _ => ?_⟩
    obtain ⟨_, -, -, -, -, rfl⟩ := adopt_eq_ok run
    exact allHeld_single
  | @moves core core' h move ih =>
    obtain ⟨hrooted, hheld⟩ := ih
    obtain ⟨W, rfl, hgood⟩ := hrooted.reachable.good laws
    cases move with
    | @insertBatch es content =>
      obtain ⟨-, hroot, hw, -⟩ := hgood.insertBatch content (r := (core.chain.insertBatch es core.storage).1) rfl
      refine ⟨⟨.insertBatch hrooted.reachable content rfl, hrooted.root.trans hroot.symm⟩, fun hnone => ?_⟩
      refine (hheld ?_).wroteAll hgood.coherent hw
      obtain ⟨e, he⟩ := hgood.coherent.base_stored
      rw [← hrooted.root] at he
      have hsame : (core.insertBatch es).2.storage.parent core.oldest = e.prev :=
        MemStorage.parent_of_envelope _ (hw.logGrows _ e he)
      rw [core.storage.parent_of_envelope he, ← hsame]
      exact hnone
    | «open» run =>
      rw [hrooted.root, hgood.open] at run
      cases run
      exact ⟨hrooted, hheld⟩
    | tick clock => exact ⟨⟨.tick hrooted.reachable clock, hrooted.root⟩, hheld⟩
  | @compactBefore core h cutoff keep minPrune pinned ih =>
    refine ⟨(ih.1.compactBefore laws cutoff keep minPrune pinned).1, fun hnone => ?_⟩
    rcases ih.1.compactBefore_cases laws cutoff keep minPrune pinned with hsame | ⟨p, hp⟩
    · rw [hsame] at hnone ⊢
      exact ih.2 hnone
    · rw [hp] at hnone; cases hnone

end Reached

/-! ## What a locator promises -/

section Promise

variable [Externals] [Encoding]

/-- On the canonical path, in the log, and with its version. -/
structure Core.Holds (core : Core) (d : EnvelopeDigest) : Prop where
  stored : core.storage.Stored d
  canonical : Canonical core.storage.parent core.storage.rank core.oldest d
  held : core.storage.Held d

/-- Every entry of the locator is one to build on: it is held on the canonical path, and no linked run
from it is refused for want of a parent. -/
def Core.Buildable (contents : Set SignedPortion) (core : Core) : Prop :=
  ∃ locator, core.syncAnswer .locator = .ok (.locator locator) ∧ ∀ d ∈ locator, core.Holds d ∧
    ∀ es tip, Sync.Linked d es tip → (∀ e ∈ es, e.toSignedPortion ∈ contents) →
      ∀ p, (core.insertBatch es).1 ≠ .error (.error (.unknownParent p))

/-- If the paths the two hold share no envelope, a pull ends without common history. -/
def Core.Parts (core peer : Core) : Prop :=
  (∀ d, core.Holds d → ¬ peer.Holds d) → ∀ p,
    Relation.ReflTransGen (Pull.Step peer.head) (Pull.opening core peer core.head) p →
      (∀ b, Effect.violation b ∉ p.puller.effects) ∧ (ingests p.puller.effects).flatten = [] ∧
        ∀ outcome, Effect.done outcome ∈ p.puller.effects → outcome = .noCommonHistory

variable {contents : Set SignedPortion} {core peer : Core}

omit [Externals] [Encoding] in
theorem Core.initRooted_iff (hstored : core.storage.Stored core.oldest) :
    core.InitRooted ↔ core.storage.parent core.oldest = none := by
  obtain ⟨e, he⟩ := hstored
  rw [core.storage.parent_of_envelope he]
  constructor
  · rintro ⟨e', msg, he', hmsg⟩
    rw [he] at he'; cases he'
    rw [Envelope.prev, hmsg]; rfl
  · intro hnone
    cases hmsg : e.payload with
    | init msg => exact ⟨e, msg, he, hmsg⟩
    | setNamespace _ | setNamespaceKey _ | amendNamespaceKey _ | deleteNamespace _ =>
      rw [Envelope.prev, hmsg] at hnone; cases hnone

omit [Encoding] in
/-- A core rooted at an `Init` has its whole log, with every version. -/
theorem Core.Reached.full (laws : DigestLaws contents) (h : core.Reached contents) (hroot : core.InitRooted) :
    ∃ W : World, W.contents = contents ∧ core.Full W := by
  obtain ⟨hrooted, hheld⟩ := h.rooted laws
  obtain ⟨W, rfl, hgood⟩ := hrooted.reachable.good laws
  have hnone := (Core.initRooted_iff (hrooted.root ▸ hgood.coherent.base_stored)).1 hroot
  obtain ⟨e, msg, he, hmsg⟩ := hroot
  obtain ⟨content, hdigest⟩ := hgood.coherent.content _ e he
  obtain ⟨v, hv⟩ := hgood.coherent.exists_state ⟨e, he⟩
  have hgenesis := (hv.init_eq content hdigest hmsg).1
  refine ⟨W, rfl, hgood, hrooted.root ▸ hgenesis, hrooted.root, ?_, hheld hnone⟩
  rw [← hgenesis]; exact hnone

omit [Encoding] in
theorem Core.Full.holds {W : World} (h : core.Full W) {d : EnvelopeDigest} (hd : Desc core.storage.parent d core.head) :
    core.Holds d := by
  have hstored := h.stored_of_desc hd
  refine ⟨hstored, ?_, h.allHeld d hstored⟩
  rw [h.oldest]
  exact h.good.canonical_iff.2 ⟨h.good.coherent.desc hstored, hd⟩

/-! ### Building on an entry -/

omit [Encoding] in
/-- With every version at hand, no envelope of a linked run lacks its parent. -/
theorem storeBatch_known {W : World} {base start tip : EnvelopeDigest} {es : List Envelope}
    (linked : Sync.Linked start es tip) : ∀ {batch : Chain.Batch} {s t : MemStorage} {err : Error}, Coherent W base s →
      AllHeld s → Chain.Footed s batch → s.Stored start → (∀ l, batch.last = some l → l = start) →
      (∀ e ∈ es, e.toSignedPortion ∈ W.contents) → Chain.storeBatch batch es s = (.error (.error err), t) →
        ∃ a, err = .apply a := by
  induction linked with
  | nil => intro batch s t err _ _ _ _ _ _ h; cases h
  | @cons start next tip e es prev digest rest ih =>
    intro batch s t err hco hheld hf hstart hlast content h
    have hc : Chain.Chains batch e := by
      intro l hl
      rw [hlast l hl]; exact prev
    have hcontent := content e List.mem_cons_self
    rcases Chain.storeOne_cases hco hf hcontent with ⟨err', hone⟩ | ⟨batch', d, u, hone, hw, hf', hd, hlast', hstored, -⟩
    · rw [Chain.storeBatch, Action.bind_error hone] at h
      cases h
      exact Chain.storeOne_held hco hf hc hcontent prev digest (hheld start hstart) hone
    · rw [digest] at hd; cases hd
      have hall : Chain.WroteAll W s u := by
        rcases hw with rfl | hw
        · exact .refl
        · exact .single hw
      rw [Chain.storeBatch, Action.bind_ok hone] at h
      refine ih (hall.coherent hco) (hheld.wroteAll hco hall) hf' ((hstored next).2 (.inr rfl)) (fun l hl => ?_)
        (fun x hx => content x (List.mem_cons_of_mem _ hx)) h
      rw [hlast'] at hl
      exact (Option.some.inj hl).symm

theorem Core.Full.buildable {W : World} (h : core.Full W) : core.Buildable W.contents := by
  obtain ⟨locator, hlocator, -, hpath⟩ := h.locator
  refine ⟨locator, hlocator, fun d hd => ⟨h.holds (hpath d hd), fun es tip linked content p hrefused => ?_⟩⟩
  obtain ⟨t, ledger, -, -, -, ⟨b, i, -, hrun⟩ | ⟨err, hstore, hrun⟩⟩ := h.good.insertBatch_run content
  · simp only [Core.insertBatch, hrun] at hrefused
    cases hrefused
  · simp only [Core.insertBatch, hrun] at hrefused
    cases hrefused
    obtain ⟨a, ha⟩ := storeBatch_known linked h.coherent h.allHeld Chain.footed_start (h.stored_of_desc (hpath d hd))
      (fun l hl => by cases hl) content hstore
    cases ha

/-- A core that is not rooted at an `Init` offers the digest its root names, which it does not hold. -/
theorem Core.Buildable.initRooted (laws : DigestLaws contents) (h : core.Rooted contents) (hb : core.Buildable contents) :
    core.InitRooted := by
  obtain ⟨W, rfl, hgood⟩ := h.reachable.good laws
  obtain ⟨locator, hlocator, hentries⟩ := hb
  obtain ⟨path, hwalk, hline⟩ := core.walkCanonical_eq_ok hgood.acyclic
  simp only [Core.syncAnswer, hwalk, Res.ok_bind] at hlocator
  cases hlocator
  obtain ⟨last, hlast, hnone⟩ := hline.getLast
  have hheld := (hentries last (getLast_mem_sample hlast)).1
  have hroot : core.oldest = last := by
    by_contra hne
    rw [h.root] at hne
    obtain ⟨p, hp, -⟩ := (hgood.coherent.desc hheld.stored).exists_parent (Ne.symm hne)
    rw [hnone] at hp; cases hp
  refine (Core.initRooted_iff (hroot ▸ hheld.stored)).2 ?_
  rw [hroot]; exact hnone

/-! ### Nothing in common -/

/-- The terms between nodes whose held paths share nothing: the server has no split, so nothing is
streamed and nothing reached. -/
def Terms.apart (core : Core) : Terms where
  offered locator := ∀ d ∈ locator, core.Holds d
  reached _ := False
  sent _ := False
  serving _ := False
  served _ := False
  unsplit _ := True
  current d := core.storage.Stored d

variable {W W' : World}

theorem Core.Full.apart_pulls (h : core.Full W) : (Terms.apart core).Pulls core where
  current d hd := Option.isSome_iff_exists.1 hd
  locator := by
    obtain ⟨locator, hlocator, hgenesis, hpath⟩ := h.locator
    exact ⟨locator, hlocator, List.ne_nil_of_mem hgenesis, fun d hd => h.holds (hpath d hd)⟩

theorem Core.Full.apart_serves (h : peer.Full W) (apart : ∀ d, core.Holds d → ¬ peer.Holds d) :
    (Terms.apart core).Serves peer where
  split locator hoffered := by
    obtain ⟨path, hwalk, hline⟩ := peer.walkCanonical_eq_ok h.good.acyclic
    refine ⟨splitPoint locator path, ?_, fun _ => trivial, fun d hd => ?_⟩
    · simp only [Core.syncAnswer, hwalk, Res.ok_bind]; rfl
    · obtain ⟨hlocator, hpath⟩ := mem_of_splitPoint hd
      exact absurd (h.holds (hline.mem_iff.1 hpath)) (apart d (hoffered d hlocator))
  segment _ hserving := hserving.elim

omit [Encoding] in
/-- A log with the head of another, both down to their `Init`, has the path of the other, and so its root. -/
theorem Core.Full.not_stored_head (h : core.Full W) (h' : peer.Full W') (hsame : W.contents = W'.contents)
    (apart : ∀ d, core.Holds d → ¬ peer.Holds d) : ¬ core.storage.Stored peer.head := by
  have hparent : ∀ {x}, core.storage.Stored x → peer.storage.Stored x → core.storage.parent x = peer.storage.parent x := by
    rintro x ⟨e, he⟩ ⟨e', he'⟩
    obtain ⟨content, hd⟩ := h.coherent.content x e he
    obtain ⟨content', hd'⟩ := h'.coherent.content x e' he'
    rw [core.storage.parent_of_envelope he, peer.storage.parent_of_envelope he', Envelope.prev, Envelope.prev,
      W.laws.collisionFree _ content _ (hsame ▸ content') x hd hd']
  have hdown : ∀ {x y}, Desc peer.storage.parent x y → core.storage.Stored y → core.storage.Stored x := by
    intro x y hxy
    induction hxy with
    | refl => exact id
    | @tail p y _ hp ih =>
      intro hy
      have hp' : core.storage.parent y = some p := (hparent hy (peer.storage.stored_of_parent hp)).trans hp
      refine ih (h.coherent.parent_stored hp' ?_)
      rintro rfl
      rw [h.top] at hp'; cases hp'
  intro hhead
  have hroot : core.storage.Stored W'.genesis := hdown h'.tip.canonical.desc hhead
  have hgenesis : W'.genesis = W.genesis := by
    by_contra hne
    obtain ⟨p, hp, -⟩ := h.coherent.exists_parent hroot hne
    rw [hparent hroot h'.coherent.base_stored, h'.top] at hp
    cases hp
  refine apart W.genesis (h.holds h.tip.canonical.desc) ?_
  rw [← hgenesis]
  exact h'.holds h'.tip.canonical.desc

theorem Core.Full.parts (h : core.Full W) (h' : peer.Full W') (hsame : W.contents = W'.contents) : core.Parts peer := by
  intro apart p steps
  have htalks : p.here = core ∧ p.there = peer ∧ p.Talks (Terms.apart core) peer.head := by
    induction steps with
    | refl => exact ⟨rfl, rfl, Pull.opening_talks core peer core.head⟩
    | @tail p q _ step ih =>
      obtain ⟨hhere, hthere, htalks⟩ := ih
      have hpulls : (Terms.apart core).Pulls p.here := hhere ▸ h.apart_pulls
      have hserves : (Terms.apart core).Serves p.there := hthere ▸ h'.apart_serves apart
      have hle : (Terms.apart core).Le (Terms.apart core) := by
        constructor <;> exact fun _ hterm => hterm
      refine ⟨?_, step.there_eq.trans hthere, step.talks htalks hpulls hserves hle fun _ _ _ _ _ _ _ _ hno => hno⟩
      rcases step.here_cases with hsame | ⟨batch, pending, insert, front, -⟩
      · exact hsame.trans hhere
      · unfold Pull.Talks at htalks
        rw [front] at htalks
        obtain ⟨_, _, -, hno, -⟩ := htalks.ingest
        exact hno.elim
  have htalks := htalks.2.2
  unfold Pull.Talks at htalks
  have hended := htalks.ended
  have hrelayed := htalks.relayed
  refine ⟨fun b => ?_, ?_, fun outcome hdone => ?_⟩
  · rw [← mem_endings_violation]
    generalize endings p.puller.effects = pulled at hended ⊢
    generalize endings p.server.effects = served at hended
    cases hended <;> simp
  · -- no envelope meets the terms of what is streamed
    rw [List.eq_nil_iff_forall_not_mem]
    intro e he
    obtain ⟨batch, hbatch, he⟩ := List.mem_flatten.1 he
    obtain ⟨batch', hbatch', rfl⟩ := List.mem_map.1 (hrelayed.ingests.subset hbatch)
    obtain ⟨e', he', -⟩ := List.mem_map.1 he
    exact hrelayed.sent e' (List.mem_flatten.2 ⟨batch', hbatch', he'⟩)
  · rw [← mem_endings_done] at hdone
    generalize endings p.puller.effects = pulled at hended hdone
    generalize endings p.server.effects = served at hended
    cases hended with
    | neither => simp at hdone
    | refused => simp at hdone
    | served => simp at hdone
    | current had => exact absurd had (h.not_stored_head h' hsame apart)
    | parted => simpa using hdone
    | synced reached ended => exact ended.elim

/-- Of two reached cores, every locator entry is one to build on, and a pull between them ends without
common history where their held paths share nothing, exactly if both are rooted at an `Init`. -/
theorem Core.Reached.buildable_iff (laws : DigestLaws contents) (h : core.Reached contents) (h' : peer.Reached contents) :
    core.Buildable contents ∧ peer.Buildable contents ∧ core.Parts peer ↔ core.InitRooted ∧ peer.InitRooted := by
  constructor
  · rintro ⟨hb, hb', -⟩
    exact ⟨hb.initRooted laws (h.rooted laws).1, hb'.initRooted laws (h'.rooted laws).1⟩
  · rintro ⟨hroot, hroot'⟩
    obtain ⟨W, hW, hfull⟩ := h.full laws hroot
    obtain ⟨W', hW', hfull'⟩ := h'.full laws hroot'
    exact ⟨hW ▸ hfull.buildable, hW' ▸ hfull'.buildable, hfull.parts hfull' (hW.trans hW'.symm)⟩

end Promise

end IrohLotus.Lotusd

/-! ## The samples -/

namespace IrohLotus.Lotusd

open Std Outcome Forest IrohLotus.Wire IrohLotus.Wire.Sample IrohLotus.Storage IrohLotus.State IrohLotus.Sync

theorem reached_linearCore : linearCore.Reached Sample.contents := by
  have hgenesis : genesis.toSignedPortion ∈ table.map Prod.fst := by decide +kernel
  have hmem : ∀ e ∈ [first, second], e.toSignedPortion ∈ table.map Prod.fst := by decide +kernel
  have hrun : Chain.init genesis (MemStorage.empty 0) = (.ok ⟨genesisDigest, ⟨genesisDigest⟩⟩, genesisStore) := by
    decide +kernel
  exact .moves (.init hgenesis hrun) (.insertBatch hmem)

theorem reached_otherCore : otherCore.Reached Sample.contents := by
  have hgenesis : genesis.toSignedPortion ∈ table.map Prod.fst := by decide +kernel
  have hmem : ∀ e ∈ [other], e.toSignedPortion ∈ table.map Prod.fst := by decide +kernel
  have hrun : Chain.init genesis (MemStorage.empty 0) = (.ok ⟨genesisDigest, ⟨genesisDigest⟩⟩, genesisStore) := by
    decide +kernel
  exact .moves (.init hgenesis hrun) (.insertBatch hmem)

theorem buildable_iff_linearCore : linearCore.InitRooted ∧ otherCore.InitRooted ∧ linearCore.Buildable Sample.contents := by
  have henv : linearCore.storage.envelope linearCore.oldest = some (genesis.setVerificationStatus (.allMatched 0)) := by
    decide +kernel
  have henv' : otherCore.storage.envelope otherCore.oldest = some (genesis.setVerificationStatus (.allMatched 0)) := by
    decide +kernel
  have hroot : linearCore.InitRooted := ⟨_, _, henv, rfl⟩
  have hroot' : otherCore.InitRooted := ⟨_, _, henv', rfl⟩
  have h := (Core.Reached.buildable_iff sample_laws reached_linearCore reached_otherCore).2 ⟨hroot, hroot'⟩
  exact ⟨hroot, hroot', h.1⟩

/-- A node that pruned all below `first`. -/
def prunedCore : Core := (linearCore.compactBefore (some 1) 2 1 ∅).2

/-- Its locator offers genesis, which it does not hold; a peer on a fork off genesis has its split
there, and the run it streams is refused, where nothing is held in common. -/
theorem not_buildable_prunedCore : prunedCore.Reached Sample.contents ∧ ¬ prunedCore.Buildable Sample.contents ∧
    prunedCore.syncAnswer .locator = .ok (.locator [secondDigest, firstDigest, genesisDigest]) ∧
    prunedCore.storage.envelope genesisDigest = none ∧
    otherCore.syncAnswer (.splitPoint [secondDigest, firstDigest, genesisDigest]) =
      .ok (.splitPoint (some genesisDigest)) ∧
    (prunedCore.insertBatch [other]).1 = .error (.error (.unknownParent genesisDigest)) := by
  have hlocator : prunedCore.syncAnswer .locator = .ok (.locator [secondDigest, firstDigest, genesisDigest]) := by
    decide +kernel
  have hnone : prunedCore.storage.envelope genesisDigest = none := by decide +kernel
  refine ⟨.compactBefore reached_linearCore _ _ _ _, ?_, hlocator, hnone, by decide +kernel, by decide +kernel⟩
  rintro ⟨locator, hanswer, hentries⟩
  rw [hlocator] at hanswer; cases hanswer
  obtain ⟨e, he⟩ := (hentries genesisDigest (by decide)).1.stored
  rw [hnone] at he; cases he

end IrohLotus.Lotusd
