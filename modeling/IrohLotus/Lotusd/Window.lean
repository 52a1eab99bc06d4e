/-
The window of the canonical chain a node shows (`Core::canonical_chain`), where its clock does not go back.
The walk stops at the first envelope stored before the cutoff. An envelope reaches the log after its parent,
so what the walk leaves out is what was stored before the cutoff, and no more.
-/
import IrohLotus.Lotusd.Serve

namespace IrohLotus.Lotusd

open Std Outcome Forest IrohLotus.Wire IrohLotus.Storage IrohLotus.State IrohLotus.Sync

/-! ## The model -/

/-- `usize::MAX`, on a target of 64 bits. -/
def USIZE_MAX : Nat := 2 ^ 64 - 1

/-- The loop of `canonical_chain`, with what it pushed so far, newest first. -/
def pushed (s : MemStorage) (limit : Nat) (since : Option StoredAt) :
    Nat → List (EnvelopeDigest × LogEntry) → Option EnvelopeDigest → Res Error (List (EnvelopeDigest × LogEntry))
  | 0, _, _ => .error .hang
  | fuel + 1, chain, next =>
    match next.filter fun _ => chain.length < limit with
    | none => pure chain
    | some digest =>
      match s.loggedEnvelope digest with
      | none => pure chain
      | some entry =>
        if since.any (entry.storedAt < ·) then pure chain
        else pushed s limit since fuel (chain ++ [(digest, entry)]) entry.envelope.prev

/-- The records of a log under `digests`, in the order asked for; those it does not hold are left out. -/
def logged (s : MemStorage) (digests : List EnvelopeDigest) : List (EnvelopeDigest × LogEntry) :=
  digests.filterMap fun digest => (s.loggedEnvelope digest).map fun entry => (digest, entry)

namespace Core

def envelopes (core : Core) (digests : List EnvelopeDigest) : List (EnvelopeDigest × LogEntry) :=
  logged core.storage digests

/-- The canonical chain, oldest first, of at most `limit` envelopes counted back from the head and no further back
than `since`. -/
def canonicalChain (core : Core) (limit : Option UInt32) (since : Option StoredAt) :
    Res Error (List (EnvelopeDigest × LogEntry)) := do
  let limit := limit.elim USIZE_MAX UInt32.toNat
  let chain ← pushed core.storage limit since (core.storage.envelopes.size + 3) [] (some core.head)
  pure chain.reverse

variable [Externals]

/-- The cores a node comes to stand at while its clock does not go back. -/
inductive Dated (contents : Set SignedPortion) : Core → Prop
  | init {clock : StoredAt} {e : Envelope} {chain : Chain} {storage : MemStorage}
    (content : e.toSignedPortion ∈ contents) (run : Chain.init e (MemStorage.empty clock) = (.ok chain, storage)) :
    Dated contents ⟨chain, storage, chain.root⟩
  | adopt {clock : StoredAt} {e : Envelope} {state : FullCheckpoint} {chain : Chain} {storage : MemStorage}
    (content : e.toSignedPortion ∈ contents)
    (run : Chain.adopt e state (MemStorage.empty clock) = (.ok chain, storage)) :
    Dated contents ⟨chain, storage, chain.root⟩
  | goes {core core' : Core} (h : Dated contents core) (goes : core.Goes contents core')
    (forward : core.storage.clock ≤ core'.storage.clock) : Dated contents core'

end Core

/-! ## The walk -/

section Walk

variable {s : MemStorage} {limit : Nat} {since : Option StoredAt}

/-- An entry the cutoff lets through. -/
def within (since : Option StoredAt) (entry : LogEntry) : Bool := since.all (· ≤ entry.storedAt)

theorem within_iff {entry : LogEntry} : within since entry = true ↔ ¬ since.any (entry.storedAt < ·) = true := by
  cases since with
  | none => simp [within]
  | some cutoff => simp [within]

/-- A walk comes by a digest the log does not hold, by one that names no parent, or goes on from the one it names. -/
theorem walkFrom_cases {fuel : Nat} {d : EnvelopeDigest} {walk : List EnvelopeDigest}
    (h : walkFrom s (fuel + 1) d = .ok walk) : (s.loggedEnvelope d = none ∧ walk = [d]) ∨
      ∃ entry, s.loggedEnvelope d = some entry ∧ (entry.envelope.prev = none ∧ walk = [d] ∨
        ∃ p rest, entry.envelope.prev = some p ∧ walkFrom s fuel p = .ok rest ∧ walk = d :: rest) := by
  unfold walkFrom at h
  cases hentry : s.loggedEnvelope d with
  | none =>
    have hp : s.parent d = none := by rw [MemStorage.parent, MemStorage.envelope, hentry]; rfl
    rw [hp] at h
    cases h
    exact .inl ⟨rfl, rfl⟩
  | some entry =>
    have hparent : s.parent d = entry.envelope.prev :=
      s.parent_of_envelope (by rw [MemStorage.envelope, hentry]; rfl)
    refine .inr ⟨entry, rfl, ?_⟩
    cases hp : s.parent d with
    | none =>
      rw [hp] at h
      cases h
      exact .inl ⟨hparent.symm.trans hp, rfl⟩
    | some p =>
      simp only [hp] at h
      obtain ⟨rest, hrest, h⟩ := Res.bind_eq_ok h
      cases h
      exact .inr ⟨p, rest, hparent.symm.trans hp, hrest, rfl⟩

/-- The loop keeps the records of the walk up to the first the cutoff does not let through, `limit` at most. -/
theorem pushed_walk : ∀ {fuel : Nat} {d : EnvelopeDigest} {walk : List EnvelopeDigest}, walkFrom s fuel d = .ok walk →
    ∀ chain, pushed s limit since (fuel + 1) chain (some d) =
      .ok (chain ++ ((logged s walk).takeWhile fun x => within since x.2).take (limit - chain.length))
  | 0, _, _, h, _ => by cases h
  | fuel + 1, d, walk, h, chain => by
    -- below `d` the loop goes on with the rest of the walk
    obtain ⟨rest, rfl, hnil, hrest⟩ : ∃ rest, walk = d :: rest ∧ (s.loggedEnvelope d = none → rest = []) ∧
        ∀ entry, s.loggedEnvelope d = some entry → ∀ chain, pushed s limit since (fuel + 1) chain entry.envelope.prev =
          .ok (chain ++ ((logged s rest).takeWhile fun x => within since x.2).take (limit - chain.length)) := by
      rcases walkFrom_cases h with ⟨hnone, rfl⟩ | ⟨entry, hentry, ⟨hprev, rfl⟩ | ⟨p, rest, hprev, hrest, rfl⟩⟩
      · exact ⟨[], rfl, fun _ => rfl, fun entry hentry => by rw [hnone] at hentry; cases hentry⟩
      · refine ⟨[], rfl, fun _ => rfl, fun entry' hentry' chain => ?_⟩
        rw [hentry] at hentry'
        cases hentry'
        rw [hprev]
        simp [pushed, logged]; rfl
      · refine ⟨rest, rfl, fun hnone => ?_, fun entry' hentry' chain => ?_⟩
        · rw [hnone] at hentry; cases hentry
        rw [hentry] at hentry'
        cases hentry'
        rw [hprev]
        exact pushed_walk hrest chain
    unfold pushed
    by_cases hshort : chain.length < limit
    · simp only [Option.filter_some, hshort, decide_true, if_true]
      cases hentry : s.loggedEnvelope d with
      | none =>
        obtain rfl := hnil hentry
        simp [logged, hentry]; rfl
      | some entry =>
        have hcons : logged s (d :: rest) = (d, entry) :: logged s rest := by simp [logged, hentry]
        dsimp only
        rw [hcons, List.takeWhile_cons]
        by_cases hwithin : within since entry = true
        · rw [if_neg (within_iff.1 hwithin), if_pos hwithin, hrest entry hentry]
          obtain ⟨left, hleft⟩ : ∃ left, limit - chain.length = left + 1 := ⟨limit - chain.length - 1, by omega⟩
          have hless : limit - (chain ++ [(d, entry)]).length = left := by
            rw [List.length_append, List.length_singleton]; omega
          rw [hless, hleft, List.take_succ_cons, List.append_assoc, List.singleton_append]
        · rw [if_pos (not_not.1 fun hany => hwithin (within_iff.2 hany)), if_neg hwithin]
          simp; rfl
    · have hnone : limit - chain.length = 0 := by omega
      simp only [Option.filter_some, hshort, decide_false, Bool.false_eq_true, if_false, hnone, List.take_zero,
        List.append_nil]
      rfl

theorem Core.canonicalChain_eq {core : Core} {walk : List EnvelopeDigest} (hwalk : core.walkCanonical = .ok walk)
    (limit : Option UInt32) (since : Option StoredAt) : core.canonicalChain limit since =
      .ok (((core.envelopes walk).takeWhile fun x => within since x.2).take (limit.elim USIZE_MAX UInt32.toNat)).reverse := by
  have hpushed : pushed core.storage (limit.elim USIZE_MAX UInt32.toNat) since (core.storage.envelopes.size + 3) []
      (some core.head) = _ := pushed_walk hwalk []
  dsimp only [Core.canonicalChain]
  rw [hpushed]
  rfl

theorem mem_logged {digests : List EnvelopeDigest} {d : EnvelopeDigest} :
    d ∈ (logged s digests).map Prod.fst ↔ d ∈ digests ∧ s.Stored d := by
  simp only [logged, List.mem_map, List.mem_filterMap, Option.map_eq_some_iff, MemStorage.Stored, MemStorage.envelope]
  constructor
  · rintro ⟨x, ⟨d', hd', entry, hentry, rfl⟩, rfl⟩
    exact ⟨hd', _, entry, hentry, rfl⟩
  · rintro ⟨hd, e, entry, hentry, -⟩
    exact ⟨(d, entry), ⟨d, hd, entry, hentry, rfl⟩, rfl⟩

end Walk

/-! ## The order of the log's times -/

section Aged

variable {s t : MemStorage} {cut head : EnvelopeDigest}

/-- Nothing was stored before its parent, or later than the clock says. -/
structure Aged (s : MemStorage) : Prop where
  rising : ∀ c p a b, s.parent c = some p → s.loggedEnvelope p = some a → s.loggedEnvelope c = some b →
    a.storedAt ≤ b.storedAt
  past : ∀ d a, s.loggedEnvelope d = some a → a.storedAt ≤ s.clock

/-- An ancestor was stored no later. -/
theorem Aged.desc (h : Aged s) {x y : EnvelopeDigest} (hdesc : Desc s.parent x y)
    {a b : LogEntry} (ha : s.loggedEnvelope x = some a) (hb : s.loggedEnvelope y = some b) : a.storedAt ≤ b.storedAt := by
  induction hdesc generalizing b with
  | refl =>
    rw [ha] at hb
    cases hb
    exact Int64.le_rfl
  | @tail p c hp hc ih =>
    have hx : s.Stored x := ⟨_, by rw [MemStorage.envelope, ha]; rfl⟩
    obtain ⟨e, he⟩ := s.stored_of_desc hx hp
    obtain ⟨entry, hentry, -⟩ := Option.map_eq_some_iff.1 he
    exact Int64.le_trans (ih hentry) (h.rising c p entry b hc hentry hb)

theorem loggedEnvelope_put {d : EnvelopeDigest} (fresh : s.envelope d = none) (e : Envelope)
    (x : EnvelopeDigest) : (s.putEnvelope d e).loggedEnvelope x = if d = x then some ⟨e, s.clock⟩ else s.loggedEnvelope x := by
  have hnone : s.loggedEnvelope d = none := Option.map_eq_none_iff.1 fresh
  have hstamp : (s.loggedEnvelope d).elim s.clock LogEntry.storedAt = s.clock := by rw [hnone]; rfl
  simp only [MemStorage.putEnvelope, hstamp]
  simp only [MemStorage.loggedEnvelope, ExtTreeMap.getElem?_insert, Std.compare_eq_iff_eq]

/-- A store of one envelope. -/
theorem aged_single {clock : StoredAt} {d : EnvelopeDigest} {e : Envelope} {v : Version} :
    Aged (((MemStorage.empty clock).install d v).putEnvelope d e) := by
  have hlog : ∀ x a, (((MemStorage.empty clock).install d v).putEnvelope d e).loggedEnvelope x = some a →
      a.storedAt = clock := by
    intro x a ha
    rw [loggedEnvelope_put (by simp [MemStorage.envelope, MemStorage.loggedEnvelope,
      MemStorage.install, MemStorage.empty])] at ha
    split at ha
    · cases ha; rfl
    · simp [MemStorage.loggedEnvelope, MemStorage.install, MemStorage.empty] at ha
  constructor
  · intro c p a b _ ha hb
    rw [hlog p a ha, hlog c b hb]
    exact Int64.le_rfl
  · intro x a ha
    rw [hlog x a ha]
    exact Int64.le_rfl

theorem Aged.compacted (h : Aged s) (hct : Chain.CompactedTo s cut head t)
    (forward : s.clock ≤ t.clock) : Aged t := by
  have hlog : ∀ d a, t.loggedEnvelope d = some a → s.loggedEnvelope d = some a := by
    intro d a ha
    by_cases hd : Desc s.parent cut d
    · rw [← hct.log_kept d hd]; exact ha
    · rw [hct.log_gone d hd] at ha; cases ha
  refine ⟨fun c p a b hc ha hb => ?_, fun d a ha => Int64.le_trans (h.past d a (hlog d a ha)) forward⟩
  exact h.rising c p a b (hct.keeps.extends c p hc) (hlog p a ha) (hlog c b hb)

variable [Externals] {W : World} {base : EnvelopeDigest}

/-- What storing an envelope writes is dated now, and nothing in the log hangs off it yet. -/
theorem Aged.wrote (h : Aged s) (hco : Coherent W base s) (hw : Chain.Wrote W s t) :
    Aged t := by
  have hcot := hw.coherent hco
  cases hw with
  | version => exact ⟨h.rising, h.past⟩
  | @envelope p d v v' e fresh parent content accepts =>
    have hlog : ∀ x, ((s.install d v').putEnvelope d e).loggedEnvelope x =
        if d = x then some ⟨e, s.clock⟩ else s.loggedEnvelope x := loggedEnvelope_put fresh e
    constructor
    · intro c q a b hq ha hb
      rw [hlog] at ha hb
      by_cases hc : d = c
      · rw [if_pos hc] at hb
        cases hb
        split at ha
        · cases ha; exact Int64.le_rfl
        · exact h.past q a ha
      · rw [if_neg hc] at hb
        have hqs : s.parent c = some q := by
          rw [MemStorage.parent_putEnvelope, if_neg hc] at hq; exact hq
        by_cases hd : d = q
        · subst hd
          exfalso
          by_cases hbase : c = base
          · subst hbase
            exact hcot.not_desc_base ⟨e, by rw [MemStorage.envelope_putEnvelope, if_pos rfl]⟩ hq
          · obtain ⟨e', he'⟩ := hco.parent_stored hqs hbase
            rw [fresh] at he'; cases he'
        · rw [if_neg hd] at ha
          exact h.rising c q a b hqs ha hb
    · intro x a ha
      rw [hlog] at ha
      split at ha
      · cases ha; exact Int64.le_rfl
      · exact h.past x a ha

theorem Aged.wroteAll (h : Aged s) (hco : Coherent W base s) (hw : Chain.WroteAll W s t) :
    Aged t := by
  induction hw with
  | refl => exact h
  | tail hs hw ih => exact ih.wrote (Chain.WroteAll.coherent hs hco) hw

end Aged

/-! ## Walks newest first -/

/-- The walk gives the digests newest first. -/
theorem lineage_pairwise {D : Type*} {parent : D → Option D} {d : D} {path : List D} (h : Lineage parent d path) :
    path.Pairwise fun x y => Desc parent y x := by
  induction h with
  | top => exact List.pairwise_singleton _ _
  | child hp rest ih => exact List.pairwise_cons.2 ⟨fun x hx => (rest.mem_iff.1 hx).child hp, ih⟩

/-- Where what follows a failing entry fails too, filtering stops at the first that fails. -/
theorem filter_eq_takeWhile {α : Type*} {keep : α → Bool} : ∀ {l : List α},
    l.Pairwise (fun x y => keep y = true → keep x = true) → l.filter keep = l.takeWhile keep
  | [], _ => rfl
  | x :: l, h => by
    obtain ⟨hhead, htail⟩ := List.pairwise_cons.1 h
    by_cases hx : keep x = true
    · rw [List.filter_cons_of_pos hx, List.takeWhile_cons_of_pos hx, filter_eq_takeWhile htail]
    · rw [List.filter_cons_of_neg hx, List.takeWhile_cons_of_neg hx, List.filter_eq_nil_iff]
      exact fun y hy hkeep => hx (hhead y hy hkeep)

/-- Newest first, the records of a walk hang one off the next and their times fall. -/
theorem Aged.falling {s : MemStorage} (h : Aged s) (hac : Acyclic s.parent) {d : EnvelopeDigest}
    {walk : List EnvelopeDigest} (hline : Lineage s.parent d walk) : (logged s walk).Pairwise fun newer older =>
      newer.1 ≠ older.1 ∧ Desc s.parent older.1 newer.1 ∧ older.2.storedAt ≤ newer.2.storedAt := by
  have hpairs := (hline.nodup hac).and (lineage_pairwise hline)
  refine List.pairwise_filterMap.2 (hpairs.imp fun ⟨hne, hdesc⟩ newer hnewer older holder => ?_)
  obtain ⟨a, ha, rfl⟩ := Option.map_eq_some_iff.1 hnewer
  obtain ⟨b, hb, rfl⟩ := Option.map_eq_some_iff.1 holder
  exact ⟨hne, hdesc, h.desc hdesc hb ha⟩

/-! ## The window -/

section Window

variable [Externals] {contents : Set SignedPortion} {core : Core}

theorem Core.Dated.reached (h : core.Dated contents) : core.Reached contents := by
  induction h with
  | init content run => exact .init content run
  | adopt content run => exact .adopt content run
  | goes _ goes _ ih =>
    cases goes with
    | moves move => exact .moves ih move
    | compact cutoff keep minPrune pinned => exact .compactBefore ih cutoff keep minPrune pinned

theorem Core.Dated.aged (laws : DigestLaws contents) (h : core.Dated contents) : Aged core.storage := by
  induction h with
  | init content run =>
    obtain ⟨_, _, _, -, -, -, -, -, rfl⟩ := init_eq_ok run
    exact aged_single
  | adopt content run =>
    obtain ⟨_, -, -, -, -, rfl⟩ := adopt_eq_ok run
    exact aged_single
  | @goes core core' h goes forward ih =>
    have hrooted := (h.reached.rooted laws).1
    cases goes with
    | moves move =>
      obtain ⟨W, rfl, hgood⟩ := hrooted.reachable.good laws
      cases move with
      | @insertBatch es content =>
        obtain ⟨-, -, hw, -⟩ := hgood.insertBatch content (r := (core.chain.insertBatch es core.storage).1) rfl
        exact ih.wroteAll hgood.coherent hw
      | «open» run =>
        rw [hrooted.root, hgood.open] at run
        cases run
        exact ih
      | tick clock => exact ⟨ih.rising, fun d a ha => Int64.le_trans (ih.past d a ha) forward⟩
    | compact cutoff keep minPrune pinned =>
      rcases hrooted.compactBefore_trims laws cutoff keep minPrune pinned with hsame | ⟨cut, -, -, hct⟩
      · rw [hsame]; exact ih
      · exact ih.compacted hct forward

/-- The records of the walk are those of the canonical path, newest first. -/
theorem Core.Rooted.mem_envelopes (laws : DigestLaws contents) (h : core.Rooted contents) {walk : List EnvelopeDigest}
    (hline : Lineage core.storage.parent core.head walk) (d : EnvelopeDigest) :
    d ∈ (core.envelopes walk).map Prod.fst ↔ Canonical core.storage.parent core.storage.rank core.root d := by
  obtain ⟨W, rfl, hgood⟩ := h.reachable.good laws
  have hroot : core.root = core.chain.root := h.root
  rw [Core.envelopes, mem_logged, hline.mem_iff, hroot, hgood.canonical_iff]
  constructor
  · exact fun ⟨hdesc, hstored⟩ => ⟨hgood.coherent.desc hstored, hdesc⟩
  · exact fun ⟨hroot, hdesc⟩ => ⟨hdesc, core.storage.stored_of_desc hgood.coherent.base_stored hroot⟩

/-- What a node shows of its canonical chain is the newest of what it stored no earlier than the cutoff, `limit` at
most, in one run up to the head. -/
theorem Core.Dated.shows (laws : DigestLaws contents) (h : core.Dated contents) (limit : Option UInt32)
    (since : Option StoredAt) : ∃ path : List (EnvelopeDigest × LogEntry),
      (∀ d, d ∈ path.map Prod.fst ↔ Canonical core.storage.parent core.storage.rank core.root d) ∧
      (∀ x ∈ path, core.storage.loggedEnvelope x.1 = some x.2) ∧
      (path.Pairwise fun newer older => newer.1 ≠ older.1 ∧ Desc core.storage.parent older.1 newer.1 ∧
        older.2.storedAt ≤ newer.2.storedAt) ∧
      ((path.filter fun x => within since x.2).take (limit.elim USIZE_MAX UInt32.toNat)) <+: path ∧
      core.canonicalChain limit since =
        .ok ((path.filter fun x => within since x.2).take (limit.elim USIZE_MAX UInt32.toNat)).reverse := by
  have hrooted := (h.reached.rooted laws).1
  obtain ⟨W, hW, hgood⟩ := hrooted.reachable.good laws
  obtain ⟨walk, hwalk, hline⟩ := core.walkCanonical_eq_ok hgood.acyclic
  have hfalling := (h.aged laws).falling hgood.acyclic hline
  have hfilter : (core.envelopes walk).filter (fun x => within since x.2) =
      (core.envelopes walk).takeWhile fun x => within since x.2 := by
    refine filter_eq_takeWhile (hfalling.imp fun ⟨_, _, hle⟩ holder => ?_)
    cases since with
    | none => rfl
    | some cutoff =>
      have hcutoff : cutoff ≤ _ := of_decide_eq_true holder
      exact decide_eq_true (Int64.le_trans hcutoff hle)
  refine ⟨core.envelopes walk, hrooted.mem_envelopes laws hline, fun x hx => ?_, hfalling, ?_, ?_⟩
  · obtain ⟨d, -, hd⟩ := List.mem_filterMap.1 hx
    obtain ⟨entry, hentry, rfl⟩ := Option.map_eq_some_iff.1 hd
    exact hentry
  · rw [hfilter]
    exact (List.take_prefix _ _).trans (List.takeWhile_prefix _)
  · rw [Core.canonicalChain_eq hwalk, hfilter]

end Window

end IrohLotus.Lotusd

/-! ## The sample -/

namespace IrohLotus.Lotusd

open Std Outcome Forest IrohLotus.Wire IrohLotus.Wire.Sample IrohLotus.Storage IrohLotus.State IrohLotus.Sync

/-- A node whose clock went on to 5 before two envelopes came in. -/
def laterCore : Core :=
  ({ genesisCore with storage := { genesisCore.storage with clock := 5 } }.insertBatch [first, second]).2

theorem dated_laterCore : laterCore.Dated Sample.contents := by
  have hgenesis : genesis.toSignedPortion ∈ table.map Prod.fst := by decide +kernel
  have hmem : ∀ e ∈ [first, second], e.toSignedPortion ∈ table.map Prod.fst := by decide +kernel
  have hrun : Chain.init genesis (MemStorage.empty 0) = (.ok ⟨genesisDigest, ⟨genesisDigest⟩⟩, genesisStore) := by
    decide +kernel
  have htick : genesisCore.storage.clock ≤ 5 := by decide +kernel
  have hclock : 5 ≤ laterCore.storage.clock := by decide +kernel
  exact .goes (.goes (.init hgenesis hrun) (.moves (.tick 5)) htick) (.moves (.insertBatch hmem)) hclock

/-- A cutoff past the first envelope leaves the other two. -/
theorem shows_later : (laterCore.canonicalChain none (some 1)).toOption.map (List.map Prod.fst) =
      some [firstDigest, secondDigest] ∧ ∃ path : List (EnvelopeDigest × LogEntry),
    (∀ d, d ∈ path.map Prod.fst ↔ Canonical laterCore.storage.parent laterCore.storage.rank laterCore.root d) ∧
      laterCore.canonicalChain none (some 1) =
        .ok ((path.filter fun x => within (some 1) x.2).take USIZE_MAX).reverse := by
  refine ⟨by decide +kernel, ?_⟩
  obtain ⟨path, hpath, -, -, -, hshown⟩ := Core.Dated.shows sample_laws dated_laterCore none (some 1)
  exact ⟨path, hpath, hshown⟩

end IrohLotus.Lotusd
