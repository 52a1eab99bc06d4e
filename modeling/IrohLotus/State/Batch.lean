/-
A batch leaves what inserting its envelopes one at a time leaves, stopping at the first refusal:
each is judged against what the store holds, and the walks in between write nothing.
-/
import IrohLotus.State.Reach

namespace IrohLotus.State

open Std Outcome Forest IrohLotus.Wire IrohLotus.Storage

variable [Externals]

/-- `insert` of each envelope in order, up to the first that is refused. -/
def Chain.insertEach : Chain → List Envelope → MemStorage → Res Error Unit × Chain × MemStorage
  | chain, [], s => (.ok (), chain, s)
  | chain, e :: es, s =>
    match chain.insert e s with
    | (.ok _, chain, s) => chain.insertEach es s
    | (.error h, chain, s) => (.error h, chain, s)

/-- Each envelope chains onto the one before it. -/
def Linked (es : List Envelope) : Prop := es.IsChain fun e e' => ∃ d, e.digest = .ok d ∧ e'.prev = some d

/-! ## Digests along a run -/

section Linked

variable {W : World}

/-- What comes later in a linked run hangs off what comes before. -/
theorem Linked.desc : ∀ {es : List Envelope} {e e' : Envelope} {d d' : EnvelopeDigest}, Linked (e :: es) →
    (∀ x ∈ e :: es, x.toSignedPortion ∈ W.contents) → e' ∈ es → e.digest = .ok d → e'.digest = .ok d' →
      ∃ c, W.prev c = some d ∧ Desc W.prev c d'
  | [], _, _, _, _, _, _, hmem, _, _ => absurd hmem List.not_mem_nil
  | x :: es, e, e', d, d', hl, content, hmem, hd, hd' => by
    obtain ⟨⟨d₁, hd₁, hprev⟩, hrest⟩ := List.isChain_cons_cons.1 hl
    rw [hd] at hd₁; cases hd₁
    have hx := content x (List.mem_cons_of_mem _ List.mem_cons_self)
    have hprev_of : ∀ c, x.digest = .ok c → W.prev c = some d := by
      intro c hc
      rw [World.prev_eq hx hc]; exact hprev
    rcases List.mem_cons.1 hmem with rfl | hmem
    · exact ⟨d', hprev_of d' hd', Desc.refl⟩
    · obtain ⟨c, hc⟩ : ∃ c, x.digest = .ok c := by
        cases es with
        | nil => cases hmem
        | cons y es =>
          obtain ⟨⟨c, hc, -⟩, -⟩ := List.isChain_cons_cons.1 hrest
          exact ⟨c, hc⟩
      obtain ⟨c', hc', hdesc⟩ := Linked.desc hrest (fun y hy => content y (List.mem_cons_of_mem _ hy)) hmem hc hd'
      exact ⟨c, hprev_of c hc, (Desc.of_child hc').trans hdesc⟩

/-- So no digest comes twice. -/
theorem Linked.digest_ne {pre post : List Envelope} (hl : Linked (pre ++ post))
    (content : ∀ x ∈ pre ++ post, x.toSignedPortion ∈ W.contents) {e e' : Envelope} {d : EnvelopeDigest} (he : e ∈ pre)
    (he' : e' ∈ post) (hd : e.digest = .ok d) : e'.digest ≠ .ok d := by
  intro hd'
  obtain ⟨as, bs, rfl⟩ := List.append_of_mem he
  rw [List.append_assoc, List.cons_append] at hl content
  have hsuffix : Linked (e :: (bs ++ post)) := (List.isChain_append.1 hl).2.1
  obtain ⟨c, hc, hdesc⟩ := hsuffix.desc (W := W) (fun x hx => content x (List.mem_append_right _ hx))
    (List.mem_append_right _ he') hd hd'
  exact World.acyclic.not_desc_parent hc hdesc

end Linked

/-! ## One envelope, in a batch and alone -/

namespace Chain

variable {s : MemStorage} {batch : Batch} {e : Envelope}

/-- In a batch it chains onto, an envelope fares as it would alone. -/
theorem storeOne_eq_start (hf : Footed s batch) (hc : Chains batch e) :
    storeOne batch e s = ((storeOne Batch.start e s).1.map fun b =>
      { b with allDuplicates := batch.allDuplicates && b.allDuplicates }, (storeOne Batch.start e s).2) := by
  cases hp : e.prev with
  | none => rw [storeOne_init hp, storeOne_init hp]; rfl
  | some p =>
    cases hd : e.digest with
    | error err => rw [storeOne_wire hc hp hd, storeOne_wire chains_start hp hd]; rfl
    | ok d =>
      rw [storeOne_eq hf hc hp hd, storeOne_eq footed_start chains_start hp hd]
      rcases hj : judge e p d (s.envelope d).isSome (ledgerAt s p) s with ⟨halt | trial, t⟩
      · rw [Action.bind_error hj, Action.bind_error hj]; rfl
      · rw [Action.bind_ok hj, Action.bind_ok hj]; rfl

/-- `insert` on a good chain, by what storing the envelope does. -/
theorem insert_cases {W : World} {chain : Chain} (h : Good W chain s) (content : e.toSignedPortion ∈ W.contents) :
    (∃ err, storeOne Batch.start e s = (.error (.error err), s) ∧
      chain.insert e s = (.error (.error err), chain, s)) ∨
    ∃ b d t i ledger, storeOne Batch.start e s = (.ok b, t) ∧ chain.insert e s = (.ok i, { chain with ledger }, t) ∧
      Good W { chain with ledger } t ∧ Footed t b ∧ e.digest = .ok d ∧ b.last = some d ∧
      ∀ x, t.Stored x ↔ s.Stored x ∨ x = d := by
  have hone : ∀ e' ∈ [e], e'.toSignedPortion ∈ W.contents := by
    intro e' he'
    rw [List.mem_singleton.1 he']; exact content
  obtain ⟨t, ledger, -, -, hgood, hres⟩ := h.insertBatch_run hone
  rcases storeOne_cases h.coherent footed_start content with ⟨err, hs⟩ | ⟨b, d, u, hs, -, hf, hd, hlast, hstored, -⟩
  · have hbatch : storeBatch Batch.start [e] s = (.error (.error err), s) := Action.bind_error hs _
    rcases hres with ⟨b, i, hb, -⟩ | ⟨err', herr, hrun⟩
    · rw [hbatch] at hb; cases hb
    · rw [hbatch] at herr; cases herr
      refine .inl ⟨err, hs, hrun.trans ?_⟩
      have hhead := Tip.unique s.rank_injective hgood.tip h.tip
      have hledger : ledger = chain.ledger := by
        cases hl : chain.ledger; cases ledger
        simp only [head, hl] at hhead; subst hhead; rfl
      rw [hledger]
  · have hbatch : ∃ b', storeBatch Batch.start [e] s = (.ok b', u) := ⟨_, Action.bind_ok hs _⟩
    obtain ⟨b', hbatch⟩ := hbatch
    rcases hres with ⟨b'', i, hb, hrun⟩ | ⟨err', herr, -⟩
    · rw [hbatch] at hb; cases hb
      exact .inr ⟨b, d, t, i, ledger, hs, hrun, hgood, hf, hd, hlast, hstored⟩
    · rw [hbatch] at herr; cases herr

/-- An envelope that chains onto the head and goes in is the new head. -/
theorem insertBatch_extends {W : World} {chain chain' : Chain} {t : MemStorage} {i : Insert} (h : Good W chain s)
    (content : e.toSignedPortion ∈ W.contents) (hprev : e.prev = some chain.head)
    (run : chain.insertBatch [e] s = (.ok i, chain', t)) :
    ∃ d v v' status, e.digest = .ok d ∧ s.versions[chain.head]? = some v ∧
      Accepts chain.head v (e.setVerificationStatus status) d v' ∧ chain' = ⟨chain.root, ⟨d⟩⟩ ∧
      t.versions[d]? = some v' ∧ Good W chain' t := by
  have hone : ∀ e' ∈ [e], e'.toSignedPortion ∈ W.contents := by
    intro e' he'
    rw [List.mem_singleton.1 he']; exact content
  obtain ⟨t', ledger, -, -, hgood, ⟨b, j, hstore, hrun⟩ | ⟨err, -, hrun⟩⟩ := h.insertBatch_run hone
  · rw [hrun] at run
    cases run
    obtain ⟨batch, u, hbatch, hrest⟩ := Action.bind_eq_ok hstore
    cases hrest
    cases hd : e.digest with
    | error err =>
      rw [storeOne_wire chains_start hprev hd] at hbatch
      cases hbatch
    | ok d =>
      rw [storeOne_eq footed_start chains_start hprev hd] at hbatch
      obtain ⟨trial, u, hjudge, hrest⟩ := Action.bind_eq_ok hbatch
      cases hrest
      -- the head has no child yet, so the envelope is new
      have hfresh : ¬ s.Stored d := by
        rintro ⟨e', he'⟩
        obtain ⟨content', hd'⟩ := h.coherent.content d e' he'
        have hsame := W.laws.collisionFree _ content _ content' d hd hd'
        refine h.tip.childless d ?_
        rw [s.parent_of_envelope he', ← hprev]
        simp only [Envelope.prev, hsame]
      rcases @judge_cases _ _ _ _ _ chain.head _ h.coherent content hd with
        ⟨err, hj, -, -⟩ | ⟨trial', hj, hstored, -⟩ | ⟨v', hj, hstored, -⟩ | ⟨v, v', status, hj, hnone, hv, hacc⟩
      · rw [hj] at hjudge; cases hjudge
      · exact absurd hstored hfresh
      · exact absurd hstored hfresh
      · rw [hj] at hjudge
        cases hjudge
        have content' : (e.setVerificationStatus status).toSignedPortion ∈ W.contents := content
        have htip := (h.coherent.addLeaf hnone hv content' hacc).tip hgood.coherent.acyclic h.tip
        have hhead : ledger.head = d := Tip.unique (MemStorage.rank_injective _) hgood.tip htip
        obtain rfl : ledger = ⟨d⟩ := by
          cases ledger
          cases hhead
          rfl
        refine ⟨d, v, v', status, rfl, hv, hacc, rfl, ?_, hgood⟩
        rw [MemStorage.versions_putEnvelope, MemStorage.versions_install, if_pos rfl]
  · rw [hrun] at run
    cases run

/-- An envelope that chains onto the head goes in exactly when the head's state accepts it. -/
theorem insertBatch_onto_head {W : World} {chain : Chain} (h : Good W chain s) (content : e.toSignedPortion ∈ W.contents)
    (hprev : e.prev = some chain.head) :
    (∃ err, chain.insertBatch [e] s = (.error (.error err), chain, s) ∧ ∀ d v status v', e.digest = .ok d →
      s.versions[chain.head]? = some v → ¬ Accepts chain.head v (e.setVerificationStatus status) d v') ∨
    ∃ d v v' status i t, e.digest = .ok d ∧ s.versions[chain.head]? = some v ∧
      Accepts chain.head v (e.setVerificationStatus status) d v' ∧
      chain.insertBatch [e] s = (.ok i, ⟨chain.root, ⟨d⟩⟩, t) ∧ t.versions[d]? = some v' ∧ Good W ⟨chain.root, ⟨d⟩⟩ t := by
  rcases insert_cases h content with ⟨err, hstore, hins⟩ | ⟨_, _, t, i, ledger, -, hins, -⟩
  · refine .inl ⟨err, hins, fun d v status v' hd hv => ?_⟩
    rw [storeOne_eq footed_start chains_start hprev hd] at hstore
    rcases judge_cases (p := chain.head) h.coherent content hd with ⟨-, -, -, hno⟩ | ⟨_, hj, -⟩ | ⟨_, hj, -⟩ | ⟨_, _, _, hj, -⟩
    · exact hno v status v' hv
    all_goals
      rw [Action.bind_ok hj] at hstore
      cases hstore
  · obtain ⟨d, v, v', status, hd, hv, hacc, hchain, hv', hgood⟩ := insertBatch_extends h content hprev hins
    have hins : chain.insertBatch [e] s = (.ok i, { chain with ledger }, t) := hins
    rw [hchain] at hins hgood
    exact .inr ⟨d, v, v', status, i, t, hd, hv, hacc, hins, hv', hgood⟩

/-- All an insert can add to the log is its own envelope. -/
theorem insert_stored {W : World} {chain : Chain} {d : EnvelopeDigest} (h : Good W chain s)
    (content : e.toSignedPortion ∈ W.contents) (hd : (chain.insert e s).2.2.Stored d) : s.Stored d ∨ e.digest = .ok d := by
  rcases insert_cases h content with ⟨err, -, hins⟩ | ⟨b, d', t, i, ledger, -, hins, -, -, hd', -, hstored⟩
  · rw [hins] at hd; exact .inl hd
  · rw [hins] at hd
    rcases (hstored d).1 hd with hd | rfl
    · exact .inl hd
    · exact .inr hd'

end Chain

/-! ## The whole run -/

/-- How inserting `es` one at a time was stopped by `err`: a first part went in, and the envelope
after it was refused. -/
structure StoppedAt (chain : Chain) (s : MemStorage) (es : List Envelope) (err : Error) (chain' : Chain) (t : MemStorage)
    (pre : List Envelope) (e : Envelope) (post : List Envelope) : Prop where
  split : es = pre ++ e :: post
  before : chain.insertEach pre s = (.ok (), chain', t)
  refused : chain'.insert e t = (.error (.error err), chain', t)
  digests : ∀ x ∈ pre, ∃ d, x.digest = .ok d
  stored : ∀ d, t.Stored d ↔ s.Stored d ∨ ∃ x ∈ pre, x.digest = .ok d

theorem insertEach_cons {chain chain₁ : Chain} {s t : MemStorage} {e : Envelope} {i : Insert}
    (h : chain.insert e s = (.ok i, chain₁, t)) (es : List Envelope) :
    chain.insertEach (e :: es) s = chain₁.insertEach es t := by
  rw [Chain.insertEach, h]

/-- Storing a linked run and inserting it one at a time go through the same stores. -/
theorem storeBatch_eq_insertEach {W : World} : ∀ {es : List Envelope} {batch : Chain.Batch} {chain : Chain} {s : MemStorage},
    Good W chain s → Chain.Footed s batch → (∀ e ∈ es.head?, Chain.Chains batch e) → Linked es →
    (∀ e ∈ es, e.toSignedPortion ∈ W.contents) → ∃ ledger t, Good W { chain with ledger } t ∧
      ((∃ b, Chain.storeBatch batch es s = (.ok b, t) ∧ chain.insertEach es s = (.ok (), { chain with ledger }, t)) ∨
      ∃ err pre e post, Chain.storeBatch batch es s = (.error (.error err), t) ∧
        chain.insertEach es s = (.error (.error err), { chain with ledger }, t) ∧
        StoppedAt chain s es err { chain with ledger } t pre e post)
  | [], batch, chain, s, h, _, _, _, _ => ⟨chain.ledger, s, h, .inl ⟨_, rfl, rfl⟩⟩
  | e :: es, batch, chain, s, h, hf, hc, hl, content => by
    have hone := Chain.storeOne_eq_start hf (hc e rfl)
    rcases Chain.insert_cases h (content e List.mem_cons_self) with
      ⟨err, hs, hins⟩ | ⟨b, d, t, i, ledger, hs, hins, hgood, hft, hd, hlast, hstored⟩
    · rw [hs] at hone
      refine ⟨chain.ledger, s, h, .inr ⟨err, [], e, es, Action.bind_error hone _, by rw [Chain.insertEach, hins],
        ⟨rfl, rfl, hins, nofun, fun d => ?_⟩⟩⟩
      simp
    · rw [hs] at hone
      have hft' : Chain.Footed t { b with allDuplicates := batch.allDuplicates && b.allDuplicates } := hft
      have hnext : ∀ e' ∈ es.head?,
          Chain.Chains { b with allDuplicates := batch.allDuplicates && b.allDuplicates } e' := by
        intro e' he' l hbl
        obtain ⟨es', rfl⟩ : ∃ es', es = e' :: es' := by
          cases es with
          | nil => cases he'
          | cons x es' => cases he'; exact ⟨es', rfl⟩
        obtain ⟨⟨d', hd', hprev⟩, -⟩ := List.isChain_cons_cons.1 hl
        rw [hd] at hd'; cases hd'
        have hbl : b.last = some l := hbl
        rw [hlast] at hbl; cases hbl
        exact hprev
      obtain ⟨ledger', u, hgood', hres⟩ := storeBatch_eq_insertEach hgood hft' hnext (List.IsChain.tail hl)
        fun x hx => content x (List.mem_cons_of_mem _ hx)
      refine ⟨ledger', u, hgood', ?_⟩
      rw [Chain.storeBatch, Action.bind_ok hone, insertEach_cons hins]
      rcases hres with ⟨b', hb', heach⟩ | ⟨err, pre, x, post, herr, heach, hstop⟩
      · exact .inl ⟨b', hb', heach⟩
      · refine .inr ⟨err, e :: pre, x, post, herr, heach, by rw [hstop.split, List.cons_append], ?_, hstop.refused, ?_, ?_⟩
        · rw [insertEach_cons hins]; exact hstop.before
        · intro y hy
          rcases List.mem_cons.1 hy with rfl | hy
          · exact ⟨d, hd⟩
          · exact hstop.digests y hy
        · intro y
          rw [hstop.stored, hstored]
          have : (∃ z ∈ e :: pre, z.digest = .ok y) ↔ y = d ∨ ∃ z ∈ pre, z.digest = .ok y := by
            simp only [List.mem_cons, exists_eq_or_imp, hd, Except.ok.injEq]
            rw [eq_comm]
          rw [this, or_assoc]

/-- The batch goes through the stores of one insert at a time, and settles where the last of them did. -/
theorem Good.insertBatch_each {W : World} {chain : Chain} {s : MemStorage} (hg : Good W chain s) {es : List Envelope}
    (linked : Linked es) (content : ∀ e ∈ es, e.toSignedPortion ∈ W.contents) : ∃ r chain' t,
      chain.insertBatch es s = (r, chain', t) ∧ chain.insertEach es s = (r.map fun _ => (), chain', t) ∧ Good W chain' t ∧
        ((∃ i, r = .ok i) ∨ ∃ err pre e post, r = .error (.error err) ∧ StoppedAt chain s es err chain' t pre e post) := by
  obtain ⟨ledger, t, hgood, hres⟩ := storeBatch_eq_insertEach hg Chain.footed_start (fun _ _ => Chain.chains_start) linked
    content
  obtain ⟨t', ledger', -, -, hgood', hrun⟩ := hg.insertBatch_run content
  have hstep : ∀ {r : Res Error Bool}, Chain.storeBatch Chain.Batch.start es s = (r, t) →
      Chain.storeBatch Chain.Batch.start es s = (r, t') → ledger' = ledger ∧ t' = t := by
    intro r h₁ h₂
    obtain rfl : t' = t := (Prod.mk.inj (h₂.symm.trans h₁)).2
    have hhead := Tip.unique t'.rank_injective hgood'.tip hgood.tip
    cases ledger; cases ledger'
    exact ⟨congrArg Ledger.mk hhead, rfl⟩
  rcases hres with ⟨b, hb, heach⟩ | ⟨err, pre, e, post, herr, heach, hstop⟩
  · rcases hrun with ⟨b', i, hb', hins⟩ | ⟨err', herr', -⟩
    · obtain ⟨rfl, rfl⟩ : ledger' = ledger ∧ t' = t := by
        obtain rfl : b' = b := by rw [hb] at hb'; cases hb'; rfl
        exact hstep hb hb'
      exact ⟨_, _, _, hins, heach, hgood, .inl ⟨i, rfl⟩⟩
    · rw [hb] at herr'; cases herr'
  · rcases hrun with ⟨b', i, hb', -⟩ | ⟨err', herr', hins⟩
    · rw [herr] at hb'; cases hb'
    · obtain rfl : err' = err := by rw [herr] at herr'; cases herr'; rfl
      obtain ⟨rfl, rfl⟩ := hstep herr herr'
      exact ⟨_, _, _, hins, heach, hgood, .inr ⟨err', pre, e, post, rfl, hstop⟩⟩

/-- A batch equals one insert at a time: the same chain and store, the same refusal if there is one,
and then exactly what comes before the refused envelope is in the log beside what was there. -/
theorem Reachable.insertBatch_eq_insertEach {contents : Set SignedPortion} (laws : DigestLaws contents) {chain : Chain}
    {s : MemStorage} (h : Reachable contents chain s) {es : List Envelope} (linked : Linked es)
    (content : ∀ e ∈ es, e.toSignedPortion ∈ contents) :
    ∃ r chain' t, chain.insertBatch es s = (r, chain', t) ∧ chain.insertEach es s = (r.map fun _ => (), chain', t) ∧
      Tip t.parent t.rank chain'.root chain'.head ∧
      ((∃ i, r = .ok i) ∨ ∃ err pre e post, r = .error (.error err) ∧ StoppedAt chain s es err chain' t pre e post ∧
        (∀ x ∈ pre, ∃ d, x.digest = .ok d ∧ t.Stored d) ∧
        ∀ x ∈ e :: post, ∀ d, x.digest = .ok d → t.Stored d → s.Stored d) := by
  obtain ⟨W, rfl, hg⟩ := h.good laws
  obtain ⟨r, chain', t, hins, heach, hgood, hres⟩ := hg.insertBatch_each linked content
  refine ⟨r, chain', t, hins, heach, hgood.tip, hres.imp_right ?_⟩
  rintro ⟨err, pre, e, post, rfl, hstop⟩
  refine ⟨err, pre, e, post, rfl, hstop, fun x hx => ?_, fun x hx d hd hst => ?_⟩
  · obtain ⟨d, hd⟩ := hstop.digests x hx
    exact ⟨d, hd, (hstop.stored d).2 (.inr ⟨x, hx, hd⟩)⟩
  · rcases (hstop.stored d).1 hst with hs | ⟨y, hy, hyd⟩
    · exact hs
    · rw [hstop.split] at linked content
      exact absurd hd (linked.digest_ne content hy hx hyd)

/-! ## A run that goes in -/

/-- A run that goes in one envelope after the other, each on the state the one before it made: from
the state `v` of `p` to the state `w` of `q`. -/
inductive Landed : Version → EnvelopeDigest → List Envelope → Version → EnvelopeDigest → Prop
  | nil (v : Version) (p : EnvelopeDigest) : Landed v p [] v p
  | cons {v v' w : Version} {p d q : EnvelopeDigest} {e : Envelope} {es : List Envelope} {status : VerificationStatus}
    (prev : e.prev = some p) (digest : e.digest = .ok d) (accepts : Accepts p v (e.setVerificationStatus status) d v')
    (rest : Landed v' d es w q) : Landed v p (e :: es) w q

/-- It ends where its last envelope does. -/
theorem Landed.last {v w : Version} {p q : EnvelopeDigest} {es : List Envelope} (h : Landed v p es w q) {e : Envelope}
    (he : es.getLast? = some e) : e.digest = .ok q := by
  induction h with
  | nil => cases he
  | @cons _ _ _ _ d _ e' es _ _ hd _ rest ih =>
    cases es with
    | nil =>
      cases he
      cases rest
      exact hd
    | cons e'' es => exact ih (by rw [List.getLast?_cons_cons] at he; exact he)

/-- What is inserted onto the head goes in from the head's state to the new one's. -/
theorem Good.insertEach_landed {W : World} : ∀ {es : List Envelope} {chain chain' : Chain} {s t : MemStorage} {v : Version},
    Good W chain s → Linked es → (∀ e ∈ es.head?, e.prev = some chain.head) → (∀ e ∈ es, e.toSignedPortion ∈ W.contents) →
    s.versions[chain.head]? = some v → chain.insertEach es s = (.ok (), chain', t) →
      ∃ w, Landed v chain.head es w chain'.head ∧ t.versions[chain'.head]? = some w ∧ Good W chain' t
  | [], chain, _, s, _, v, h, _, _, _, hv, run => by
    cases run
    exact ⟨v, .nil _ _, hv, h⟩
  | e :: es, chain, chain', s, t, v, h, hl, hfirst, content, hv, run => by
    have hprev := hfirst e rfl
    rcases Chain.insertBatch_onto_head h (content e List.mem_cons_self) hprev with
      ⟨err, hins, -⟩ | ⟨d, v₁, v', status, i, t', hd, hv₁, hacc, hins, hv', hgood⟩
    · have hins : chain.insert e s = _ := hins
      rw [Chain.insertEach, hins] at run
      cases run
    · rw [hv] at hv₁
      cases hv₁
      rw [insertEach_cons hins] at run
      have hnext : ∀ e' ∈ es.head?, e'.prev = some d := by
        intro e' he'
        cases es with
        | nil => cases he'
        | cons x es =>
          cases he'
          obtain ⟨⟨d', hd', hprev'⟩, -⟩ := List.isChain_cons_cons.1 hl
          rw [hd] at hd'
          cases hd'
          exact hprev'
      obtain ⟨w, hlanded, hw, hgood'⟩ := Good.insertEach_landed hgood (List.IsChain.tail hl) hnext
        (fun x hx => content x (List.mem_cons_of_mem _ hx)) hv' run
      exact ⟨w, .cons hprev hd hacc hlanded, hw, hgood'⟩

/-! ## What a run answers -/

namespace Chain

variable {W : World} {base : EnvelopeDigest} {s t : MemStorage} {batch batch' : Batch} {e : Envelope}

/-- An envelope goes in only where it chains on, and it is a duplicate if the log held its digest. -/
theorem storeOne_eq_ok (hf : Footed s batch) (h : storeOne batch e s = (.ok batch', t)) :
    ∃ d, Chains batch e ∧ e.digest = .ok d ∧ (∃ p, e.prev = some p) ∧
      batch'.allDuplicates = (batch.allDuplicates && (s.envelope d).isSome) := by
  cases hp : e.prev with
  | none => rw [storeOne_init hp] at h; cases h
  | some p =>
    have hc : Chains batch e := by
      intro l hl
      by_contra hne
      rw [storeOne_mismatch hl hp fun hlp => hne (by rw [hp, hlp])] at h
      cases h
    cases hd : e.digest with
    | error err => rw [storeOne_wire hc hp hd] at h; cases h
    | ok d =>
      rw [storeOne_eq hf hc hp hd] at h
      obtain ⟨trial, u, -, hrest⟩ := Action.bind_eq_ok h
      cases hrest
      exact ⟨d, hc, rfl, ⟨p, rfl⟩, rfl⟩

/-- A run that was stored is linked. -/
theorem storeBatch_linked : ∀ {es : List Envelope} {batch : Batch} {s : MemStorage} {b : Bool}, Coherent W base s →
    Footed s batch → (∀ e ∈ es, e.toSignedPortion ∈ W.contents) → storeBatch batch es s = (.ok b, t) →
      (∀ e ∈ es.head?, Chains batch e) ∧ Linked es
  | [], _, _, _, _, _, _, _ => ⟨nofun, List.isChain_nil⟩
  | e :: es, batch, s, b, hco, hf, content, h => by
    obtain ⟨batch', u, hone, hrest⟩ := Action.bind_eq_ok h
    rcases storeOne_cases hco hf (content e List.mem_cons_self) with
      ⟨err, hs⟩ | ⟨_, d, _, hs, hw, hf', hd, hlast, -, -⟩
    · rw [hs] at hone; cases hone
    · rw [hs] at hone; cases hone
      obtain ⟨_, hc, -⟩ := storeOne_eq_ok hf hs
      have hco' : Coherent W base u := by
        rcases hw with rfl | hw
        · exact hco
        · exact hw.coherent hco
      obtain ⟨hhead, hlinked⟩ := storeBatch_linked hco' hf' (fun x hx => content x (List.mem_cons_of_mem _ hx)) hrest
      refine ⟨fun e' he' => by cases he'; exact hc, List.isChain_cons.2 ⟨fun y hy => ⟨d, hd, hhead y hy d hlast⟩, hlinked⟩⟩

/-- The flag of a stored run: all of it was in the log before, since no digest of it comes twice. -/
theorem storeBatch_duplicates : ∀ {es : List Envelope} {batch : Batch} {s : MemStorage} {b : Bool}, Coherent W base s →
    Footed s batch → (∀ e ∈ es, e.toSignedPortion ∈ W.contents) → Linked es → storeBatch batch es s = (.ok b, t) →
      (b = true ↔ (batch.last.isSome = true ∨ es ≠ []) ∧ batch.allDuplicates = true ∧
        ∀ e ∈ es, ∃ d, e.digest = .ok d ∧ s.Stored d)
  | [], batch, s, b, _, _, _, _, h => by
    cases h
    simp
  | e :: es, batch, s, b, hco, hf, content, hl, h => by
    obtain ⟨batch', u, hone, hrest⟩ := Action.bind_eq_ok h
    rcases storeOne_cases hco hf (content e List.mem_cons_self) with
      ⟨err, hs⟩ | ⟨_, d, _, hs, hw, hf', hd, hlast, hstored, -⟩
    · rw [hs] at hone; cases hone
    · rw [hs] at hone; cases hone
      obtain ⟨d', -, hd', -, hdup⟩ := storeOne_eq_ok hf hs
      rw [hd] at hd'; cases hd'
      have hco' : Coherent W base u := by
        rcases hw with rfl | hw
        · exact hco
        · exact hw.coherent hco
      have hiff := storeBatch_duplicates hco' hf' (fun x hx => content x (List.mem_cons_of_mem _ hx)) hl.tail hrest
      -- what the run itself just stored is not what comes later in it
      have hrest : (∀ x ∈ es, ∃ y, x.digest = .ok y ∧ u.Stored y) ↔ ∀ x ∈ es, ∃ y, x.digest = .ok y ∧ s.Stored y := by
        refine forall₂_congr fun x hx => exists_congr fun y => and_congr_right fun hy => ?_
        rw [hstored]
        refine ⟨fun h => h.resolve_right ?_, .inl⟩
        rintro rfl
        exact @Linked.digest_ne _ _ [e] es hl content _ _ _ List.mem_cons_self hx hd hy
      have hhere : (∃ y, e.digest = .ok y ∧ s.Stored y) ↔ (s.envelope d).isSome = true := by
        rw [hd]
        simp only [Except.ok.injEq, exists_eq_left', MemStorage.Stored, Option.isSome_iff_exists]
      rw [hiff, hrest, hlast, hdup, List.forall_mem_cons, hhere, Bool.and_eq_true]
      simp only [Option.isSome_some, true_or, true_and, ne_eq, reduceCtorEq, not_false_eq_true, or_true, and_assoc]

/-- A run that is not refused answers from the log it leaves. -/
theorem insertBatch_eq_ok {chain chain' : Chain} {es : List Envelope} {i : Insert}
    (run : chain.insertBatch es s = (.ok i, chain', t)) :
    ∃ b u, storeBatch Batch.start es s = (.ok b, u) ∧ outcome t chain.head chain'.head b = .ok i := by
  unfold insertBatch at run
  rcases hstore : storeBatch Batch.start es s with ⟨_ | b, u⟩
  case error halt =>
    cases halt with
    | error err =>
      rw [Action.attempt_error hstore] at run
      simp only at run
      split at run
      · cases run
      · cases run
    | panic message => rw [Action.attempt_panic hstore] at run; cases run
    | hang => rw [Action.attempt_hang hstore] at run; cases run
  case ok =>
    rw [Action.attempt_ok hstore] at run
    simp only at run
    split at run
    · cases run
    · rename_i ledger v hcanon
      have hanswer : outcome v chain.ledger.head ledger.head b = (.ok i : Res Error Insert) := congrArg Prod.fst run
      obtain ⟨rfl, rfl⟩ := Prod.mk.inj (congrArg Prod.snd run)
      exact ⟨b, u, rfl, hanswer⟩

end Chain

/-- What a run that is not refused answers, from the log before it and after it. -/
theorem Reachable.insertBatch_answers {contents : Set SignedPortion} (laws : DigestLaws contents) {chain chain' : Chain}
    {s t : MemStorage} (h : Reachable contents chain s) {es : List Envelope} {i : Insert}
    (content : ∀ e ∈ es, e.toSignedPortion ∈ contents) (run : chain.insertBatch es s = (.ok i, chain', t)) :
    (i = .extended ↔ chain'.head ≠ chain.head ∧ Desc t.parent chain.head chain'.head) ∧
    (∀ d, i = .reorged d ↔ d = chain.head ∧ chain'.head ≠ chain.head ∧ ¬ Desc t.parent chain.head chain'.head) ∧
    (i = .duplicate ↔ chain'.head = chain.head ∧ es ≠ [] ∧ ∀ e ∈ es, ∃ d, e.digest = .ok d ∧ s.Stored d) ∧
    (i = .unchanged ↔ chain'.head = chain.head ∧ ¬ (es ≠ [] ∧ ∀ e ∈ es, ∃ d, e.digest = .ok d ∧ s.Stored d)) := by
  obtain ⟨W, rfl, hg⟩ := h.good laws
  have hgood := (hg.insertBatch content run).1
  obtain ⟨b, u, hstore, hanswer⟩ := Chain.insertBatch_eq_ok run
  have hlinked := (Chain.storeBatch_linked hg.coherent Chain.footed_start content hstore).2
  have hdup : b = true ↔ es ≠ [] ∧ ∀ e ∈ es, ∃ d, e.digest = .ok d ∧ s.Stored d := by
    refine (Chain.storeBatch_duplicates hg.coherent Chain.footed_start content hlinked hstore).trans ?_
    simp [Chain.Batch.start]
  obtain ⟨up, hup, hdesc⟩ := Chain.descends_eq_ok hgood.acyclic chain'.head chain.head
  rw [← hdup, ← hdesc]
  unfold Chain.outcome at hanswer
  by_cases hmoved : chain'.head = chain.head
  · rw [if_neg (not_not_intro hmoved)] at hanswer
    cases b with
    | true => cases hanswer; simp [hmoved]
    | false => cases hanswer; simp [hmoved]
  · rw [if_pos hmoved, hup] at hanswer
    cases up with
    | true => cases hanswer; simp [hmoved]
    | false => cases hanswer; simp [hmoved, eq_comm]

end IrohLotus.State

/-! ## The samples -/

namespace IrohLotus.State

open Std Outcome Forest IrohLotus.Wire IrohLotus.Wire.Sample IrohLotus.Storage

theorem insertBatch_eq_insertEach_sample :
    Linked [first, second, third] ∧ ∃ chain' t,
      (Chain.mk genesisDigest ⟨genesisDigest⟩).insertBatch [first, second, third] genesisStore =
        (.ok .extended, chain', t) ∧
      (Chain.mk genesisDigest ⟨genesisDigest⟩).insertEach [first, second, third] genesisStore = (.ok (), chain', t) := by
  have hmem : ∀ e ∈ [first, second, third], e.toSignedPortion ∈ table.map Prod.fst := by decide +kernel
  have hlink : Linked [first, second, third] := by
    refine List.isChain_cons_cons.2 ⟨⟨firstDigest, by decide +kernel, by decide +kernel⟩, ?_⟩
    exact List.isChain_pair.2 ⟨secondDigest, by decide +kernel, by decide +kernel⟩
  obtain ⟨r, chain', t, hbatch, heach, -, -⟩ :=
    Reachable.insertBatch_eq_insertEach sample_laws reachable_genesisStore hlink hmem
  have hr : ((Chain.mk genesisDigest ⟨genesisDigest⟩).insertBatch [first, second, third] genesisStore).1 = .ok .extended := by
    decide +kernel
  rw [hbatch] at hr
  cases hr
  exact ⟨hlink, chain', t, hbatch, heach⟩

/-- A run that extends, the same run again, and a fork that loses. -/
theorem insertBatch_answers_samples :
    Desc linearStore.parent genesisDigest secondDigest ∧
      (∀ e ∈ [first, second], ∃ d, e.digest = .ok d ∧ linearStore.Stored d) ∧
      ¬ ∀ e ∈ [other], ∃ d, e.digest = .ok d ∧ linearStore.Stored d := by
  have hmem : (∀ e ∈ [first, second], e.toSignedPortion ∈ table.map Prod.fst) ∧
      ∀ e ∈ [other], e.toSignedPortion ∈ table.map Prod.fst := by
    decide +kernel
  have hruns : (Chain.mk genesisDigest ⟨genesisDigest⟩).insertBatch [first, second] genesisStore =
        (.ok .extended, ⟨genesisDigest, ⟨secondDigest⟩⟩, linearStore) ∧
      (Chain.mk genesisDigest ⟨secondDigest⟩).insertBatch [first, second] linearStore =
        (.ok .duplicate, ⟨genesisDigest, ⟨secondDigest⟩⟩, linearStore) ∧
      (Chain.mk genesisDigest ⟨secondDigest⟩).insertBatch [other] linearStore =
        (.ok .unchanged, ⟨genesisDigest, ⟨secondDigest⟩⟩, forkedStore) := by
    decide +kernel
  obtain ⟨hextended, hduplicate, hunchanged⟩ := hruns
  refine ⟨?_, ?_, ?_⟩
  · exact ((Reachable.insertBatch_answers sample_laws reachable_genesisStore hmem.1 hextended).1.1 rfl).2
  · exact ((Reachable.insertBatch_answers sample_laws reachable_linearStore hmem.1 hduplicate).2.2.1.1 rfl).2.2
  · intro hall
    exact ((Reachable.insertBatch_answers sample_laws reachable_linearStore hmem.2 hunchanged).2.2.2.1 rfl).2
      ⟨List.cons_ne_nil _ _, hall⟩

end IrohLotus.State
