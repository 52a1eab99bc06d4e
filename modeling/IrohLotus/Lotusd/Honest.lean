/-
Sessions between nodes grown from one `Init`, with inserts on either node at any time in between. The
split always exists, since the `Init` ends every locator and is on every path; what the server
streams is a linked run of its log, which the puller ingests whole.
-/
import IrohLotus.Lotusd.Node

namespace IrohLotus.Lotusd

open Std Outcome Forest IrohLotus.Wire IrohLotus.Storage IrohLotus.State IrohLotus.Sync

/-! ## The terms -/

section Terms

variable [Externals]

/-- The terms between two nodes of one world. What is said of the server's path holds while the
serving node stands `still`. -/
def Terms.ofInit (still : Prop) (W : World) (here there : Core) : Terms where
  offered locator := (∀ d ∈ locator, here.storage.Stored d) ∧ W.genesis ∈ locator
  reached d := here.storage.Stored d
  sent e := ∃ d, there.storage.envelope d = some e ∧ (still → Desc there.storage.parent d there.head)
  serving d := still → Desc there.storage.parent d there.head
  served d := still → d = there.head
  unsplit _ := False
  current d := here.storage.Stored d

variable {still : Prop} {W : World} {here here' there there' : Core}

theorem Terms.ofInit_le_here (hgrows : here.storage.LogGrows here'.storage) :
    (Terms.ofInit still W here there).Le (Terms.ofInit still W here' there) where
  offered _ h := ⟨fun d hd => hgrows.stored (h.1 d hd), h.2⟩
  reached _ h := hgrows.stored h
  sent _ h := h
  serving _ h := h
  served _ h := h
  unsplit _ h := h
  current _ h := hgrows.stored h

theorem Terms.ofInit_le_there (moving : ¬ still) (hgrows : there.storage.LogGrows there'.storage) :
    (Terms.ofInit still W here there).Le (Terms.ofInit still W here there') where
  offered _ h := h
  reached _ h := h
  sent e h := by
    obtain ⟨d, hd, -⟩ := h
    exact ⟨d, hgrows d e hd, fun hs => absurd hs moving⟩
  serving _ _ hs := absurd hs moving
  served _ _ hs := absurd hs moving
  unsplit _ h := h
  current _ h := h

variable [Encoding]

/-- The locator of a node that reaches down to its `Init`: it is out of the path, and ends there. -/
theorem Core.Full.locator (h : here.Full W) : ∃ locator, here.syncAnswer .locator = .ok (.locator locator) ∧
    W.genesis ∈ locator ∧ ∀ d ∈ locator, Desc here.storage.parent d here.head := by
  obtain ⟨path, hwalk, hline⟩ := here.walkCanonical_eq_ok h.good.acyclic
  obtain ⟨last, hlast, hnone⟩ := hline.getLast
  have hmem : last ∈ sample path := getLast_mem_sample hlast
  have hgenesis : W.genesis = last := by
    -- the walk ends where there is no parent
    by_contra hne
    have hstored := h.stored_of_desc (hline.mem_iff.1 (mem_of_mem_sample hmem))
    obtain ⟨p, hp, -⟩ := (h.coherent.desc hstored).exists_parent (Ne.symm hne)
    rw [hnone] at hp; cases hp
  refine ⟨sample path, ?_, hgenesis ▸ hmem, fun d hd => hline.mem_iff.1 (mem_of_mem_sample hd)⟩
  simp only [Core.syncAnswer, hwalk, Res.ok_bind]; rfl

theorem Core.Full.pulls (h : here.Full W) : (Terms.ofInit still W here there).Pulls here where
  current d hd := Option.isSome_iff_exists.1 hd
  locator := by
    obtain ⟨locator, hlocator, hgenesis, hpath⟩ := h.locator
    exact ⟨locator, hlocator, List.ne_nil_of_mem hgenesis, fun d hd => h.stored_of_desc (hpath d hd), hgenesis⟩

theorem Core.Full.serves (h : there.Full W) : (Terms.ofInit still W here there).Serves there where
  split locator hoffered := by
    obtain ⟨path, hwalk, hline⟩ := there.walkCanonical_eq_ok h.good.acyclic
    refine ⟨splitPoint locator path, ?_, fun hnone => ?_, fun d hd => ?_⟩
    · simp only [Core.syncAnswer, hwalk, Res.ok_bind]; rfl
    · exact splitPoint_eq_none hnone hoffered.2 (hline.mem_iff.2 h.tip.canonical.desc)
    · obtain ⟨hlocator, hpath⟩ := mem_of_splitPoint hd
      exact ⟨hlocator, fun _ => hline.mem_iff.1 hpath, hoffered.1 d hlocator⟩
  segment after hafter := by
    obtain ⟨batch, tip, hseg, his⟩ := Core.segment_eq_ok h.coherent after
    refine ⟨batch, tip, ?_, his.linked, his.cap, fun e he => ?_, fun hs => his.onPath (hafter hs), fun hnil hs =>
      his.ended (hafter hs) hnil⟩
    · simp only [Core.syncAnswer, hseg, Res.ok_bind]; rfl
    · obtain ⟨d, hd, hdesc⟩ := his.stored e he
      exact ⟨d, hd, fun _ => hdesc⟩

end Terms

/-! ## Honest sessions -/

variable [Externals] [Encoding]

/-- A session between two nodes of one world. -/
structure Pull.Honest (still : Prop) (W : World) (head : EnvelopeDigest) (p : Pull) : Prop where
  here : p.here.Full W
  there : p.there.Full W
  talks : p.Talks (Terms.ofInit still W p.here p.there) head

section Honest

variable {still : Prop} {W : World} {head : EnvelopeDigest} {p q : Pull}

omit [Encoding] in
/-- Where the puller has an ingest to do, it goes through whole. -/
theorem Pull.Honest.ingest (h : p.Honest still W head) {batch : List Envelope} {pending : List (Effect PullOutcome)}
    (front : p.puller.pending = .ingest batch :: pending) :
    (∀ e ∈ batch, e.toSignedPortion ∈ W.contents ∧ ∃ d, e.digest = .ok d ∧
        (still → Desc p.there.storage.parent d p.there.head)) ∧
      (∃ i, (p.here.insertBatch batch).1 = .ok i) ∧
      (∀ x, (p.here.insertBatch batch).2.storage.Stored x ↔ p.here.storage.Stored x ∨ ∃ e ∈ batch, e.digest = .ok x) ∧
      ∀ start tip, Linked start batch tip → p.here.storage.Stored start →
        (p.here.insertBatch batch).2.storage.Stored tip := by
  have htalks := h.talks
  unfold Pull.Talks at htalks
  rw [front] at htalks
  obtain ⟨start, tip, linked, reached, hsent⟩ := htalks.ingest
  have hes : ∀ e ∈ batch, e.toSignedPortion ∈ W.contents ∧ ∃ d v, e.digest = .ok d ∧ W.StateOf d v := by
    intro e he
    obtain ⟨e', ⟨d, hd, -⟩, rfl⟩ := hsent e he
    obtain ⟨content, hdigest⟩ := h.there.coherent.content d e' hd
    obtain ⟨v, hv⟩ := h.there.coherent.exists_state ⟨e', hd⟩
    exact ⟨content, d, v, hdigest, hv⟩
  have hfrom : ∀ e ∈ batch, ∃ d, e.digest = .ok d ∧ (still → Desc p.there.storage.parent d p.there.head) := by
    intro e he
    obtain ⟨e', ⟨d, hd, hdesc⟩, rfl⟩ := hsent e he
    exact ⟨d, (h.there.coherent.content d e' hd).2, hdesc⟩
  obtain ⟨i, hok, -, hstored⟩ := h.here.ingest linked reached hes
  refine ⟨fun e he => ⟨(hes e he).1, hfrom e he⟩, ⟨i, hok⟩, hstored, fun start' tip' linked' hstart' => ?_⟩
  obtain ⟨_, -, htip, -⟩ := h.here.ingest linked' hstart' hes
  exact htip

theorem Pull.Honest.step (h : p.Honest still W head) (step : Pull.Step head p q) : q.Honest still W head := by
  have hthere := step.there_eq
  have hhere : q.here.Full W ∧ p.here.storage.LogGrows q.here.storage := by
    rcases step.here_cases with hsame | ⟨batch, pending, insert, front, hins⟩
    · rw [hsame]
      exact ⟨h.here, fun _ _ he => he⟩
    · have hfull := h.here.insertBatch fun e he => ((h.ingest front).1 e he).1
      rw [hins] at hfull
      exact hfull
  refine ⟨hhere.1, hthere ▸ h.there, ?_⟩
  rw [hthere]
  refine step.talks h.talks h.here.pulls h.there.serves (Terms.ofInit_le_here hhere.2) ?_
  intro batch pending insert start tip front hins linked hstart
  have htip := (h.ingest front).2.2.2 start tip linked hstart
  rw [hins] at htip
  exact htip

omit [Encoding] in
theorem Pull.Honest.here_moves (h : p.Honest still W head) {core : Core} (move : p.here.Moves W.contents core) :
    Pull.Honest still W head { p with here := core } := by
  obtain ⟨hfull, hgrows⟩ := h.here.moves move
  exact ⟨hfull, h.there, h.talks.mono (Terms.ofInit_le_here hgrows)⟩

omit [Encoding] in
theorem Pull.Honest.there_moves (h : p.Honest still W head) (moving : ¬ still) {core : Core}
    (move : p.there.Moves W.contents core) : Pull.Honest still W head { p with there := core } := by
  obtain ⟨hfull, hgrows⟩ := h.there.moves move
  exact ⟨h.here, hfull, h.talks.mono (Terms.ofInit_le_there moving hgrows)⟩

end Honest

/-! ## Sessions under way -/

/-- The states of a session, with moves of either node between any two steps of it. -/
inductive Pull.Runs (contents : Set SignedPortion) (head : EnvelopeDigest) (start : Pull) : Pull → Prop
  | opening : Runs contents head start start
  | step {p q : Pull} (before : Runs contents head start p) (step : Pull.Step head p q) : Runs contents head start q
  | here {p : Pull} {core : Core} (before : Runs contents head start p) (move : p.here.Moves contents core) :
    Runs contents head start { p with here := core }
  | there {p : Pull} {core : Core} (before : Runs contents head start p) (move : p.there.Moves contents core) :
    Runs contents head start { p with there := core }

theorem Pull.Runs.steps {contents : Set SignedPortion} {head : EnvelopeDigest} {start p q : Pull}
    (before : Pull.Runs contents head start p) (steps : Relation.ReflTransGen (Pull.Step head) p q) :
    Pull.Runs contents head start q := by
  induction steps with
  | refl => exact before
  | tail _ step ih => exact .step ih step

/-- What a session between honest nodes keeps to at every moment. -/
structure Pull.Survives (head : EnvelopeDigest) (p : Pull) : Prop where
  /-- Neither side ever reports a breach. -/
  unbroken : ∀ b, Effect.violation b ∉ p.puller.effects ∧ Effect.violation b ∉ p.server.effects
  /-- They always have a split. -/
  common : Effect.done .noCommonHistory ∉ p.puller.effects
  /-- No ingest is refused. -/
  ingests : ∀ batch pending, p.puller.pending = .ingest batch :: pending → ∃ insert, (p.here.insertBatch batch).1 = .ok insert
  /-- What is streamed is one linked run from the split on. -/
  run : streamed p.server.effects ≠ [] → ∃ at' tip, Effect.send (.split at') ∈ p.server.effects ∧
    Linked at' (streamed p.server.effects).flatten tip
  /-- All of it is in the server's log, none of it twice. -/
  logged : ∀ e ∈ (streamed p.server.effects).flatten, ∃ d, p.there.storage.envelope d = some e
  distinct : ((streamed p.server.effects).flatten.map Envelope.digest).Nodup
  /-- The puller ingests the batches as they were streamed. -/
  relayed : Sync.ingests p.puller.effects <+: (streamed p.server.effects).map (List.map received)
  /-- The puller's outcome is the server's. -/
  synced : ∀ tip count, Effect.done (.synced tip count) ∈ p.puller.effects →
    Effect.done (.served tip count) ∈ p.server.effects ∧
      ∀ tip' count', Effect.done (.served tip' count') ∈ p.server.effects → tip' = tip ∧ count' = count
  /-- Every question is answered and the answer taken, unless the puller's own path is past what a
  locator covers. -/
  asked : (∀ q pending, p.puller.pending = .ask q :: pending → ∃ a, p.here.syncAnswer q = .ok a ∧
      ((∃ stepped, Puller.step p.puller.machine (.answer a) = .ok stepped) ∨
        ∃ path, p.here.walkCanonical = .ok path ∧ 2 ^ 62 < path.length)) ∧
    ∀ q pending, p.server.pending = .ask q :: pending → ∃ a stepped, p.there.syncAnswer q = .ok a ∧
      Server.step head p.server.machine (.answer a) = .ok stepped
  /-- Every frame is taken. -/
  taken : (∀ m frames, p.puller.pending = [] → p.toPuller = m :: frames →
      ∃ stepped, Puller.step p.puller.machine (.message m.received) = .ok stepped) ∧
    ∀ m frames, p.server.pending = [] → p.toServer = m :: frames →
      ∃ stepped, Server.step head p.server.machine (.message m.received) = .ok stepped

section Survives

variable {still : Prop} {W : World} {head : EnvelopeDigest} {p : Pull}

omit [Encoding] in
/-- No digest comes twice in a linked run. -/
theorem nodup_of_linked {start tip : EnvelopeDigest} {es : List Envelope} (linked : Sync.Linked start es tip)
    (content : ∀ e ∈ es, e.toSignedPortion ∈ W.contents) : (es.map Envelope.digest).Nodup := by
  induction linked with
  | nil => exact List.nodup_nil
  | @cons cursor next tip e es prev digest rest ih =>
    rw [List.map_cons, List.nodup_cons]
    refine ⟨fun hmem => ?_, ih fun x hx => content x (List.mem_cons_of_mem _ hx)⟩
    obtain ⟨x, hx, hxd⟩ := List.mem_map.1 hmem
    rw [digest] at hxd
    have hlinked : State.Linked (e :: es) := linked_of_linked (.cons prev digest rest)
    obtain ⟨c, hc, hdesc⟩ := hlinked.desc content hx digest hxd
    exact World.acyclic.not_desc_parent hc hdesc

theorem Pull.Honest.survives_of_honest (h : p.Honest still W head) : p.Survives head := by
  have htalks := h.talks
  unfold Pull.Talks at htalks
  have hended := htalks.ended
  have hrelayed := htalks.relayed
  have hlogged : ∀ e ∈ (streamed p.server.effects).flatten, ∃ d, p.there.storage.envelope d = some e := by
    intro e he
    obtain ⟨d, hd, -⟩ := hrelayed.sent e he
    exact ⟨d, hd⟩
  refine ⟨fun b => ?_, ?_, fun batch pending front => (h.ingest front).2.1, hrelayed.run, hlogged, ?_, hrelayed.ingests,
    fun tip count hdone => ?_, ⟨fun q pending front => ?_, fun q pending front => ?_⟩,
    ⟨fun m frames idle front => ?_, fun m frames idle front => ?_⟩⟩
  · have hno : Effect.violation b ∉ endings p.puller.effects ∧ Effect.violation b ∉ endings p.server.effects := by
      generalize endings p.puller.effects = pulled at hended ⊢
      generalize endings p.server.effects = served at hended ⊢
      cases hended <;> simp
    exact ⟨mt mem_endings_violation.2 hno.1, mt mem_endings_violation.2 hno.2⟩
  · rw [← mem_endings_done]
    generalize endings p.puller.effects = pulled at hended ⊢
    generalize endings p.server.effects = served at hended ⊢
    cases hended with
    | parted unsplit => exact unsplit.elim
    | neither => simp
    | current => simp
    | refused => simp
    | served => simp
    | synced => simp
  · by_cases hne : streamed p.server.effects = []
    · rw [hne]; exact List.nodup_nil
    · obtain ⟨at', tip, -, hlinked⟩ := hrelayed.run hne
      refine nodup_of_linked (W := W) hlinked fun e he => ?_
      obtain ⟨d, hd⟩ := hlogged e he
      exact (h.there.coherent.content d e hd).1
  · rw [← mem_endings_done] at hdone
    have hserved : ∀ outcome, Effect.done outcome ∈ p.server.effects ↔ Effect.done outcome ∈ endings p.server.effects :=
      fun outcome => mem_endings_done.symm
    simp only [hserved]
    generalize endings p.puller.effects = pulled at hended hdone
    generalize endings p.server.effects = served at hended ⊢
    cases hended with
    | neither => simp at hdone
    | current => simp at hdone
    | refused => simp at hdone
    | parted => simp at hdone
    | served => simp at hdone
    | synced reached ended =>
      obtain ⟨rfl, rfl⟩ : tip = _ ∧ count = _ := by simpa using hdone
      simp
  · rw [front] at htalks
    obtain ⟨a, hanswer, hres⟩ := htalks.pullerAsks h.here.pulls
    refine ⟨a, hanswer, ?_⟩
    rcases hres with ⟨locator, rfl, hlen, -⟩ | ⟨stepped, hstep, -⟩
    · obtain ⟨path, hwalk, -⟩ := p.here.walkCanonical_eq_ok h.here.good.acyclic
      refine .inr ⟨path, hwalk, ?_⟩
      by_contra hshort
      have hq : locator = sample path := by
        cases q with
        | locator =>
          simp only [Core.syncAnswer, hwalk, Res.ok_bind] at hanswer
          cases hanswer; rfl
        | containsEnvelope d => simp only [Core.syncAnswer] at hanswer; cases hanswer
        | splitPoint entries => simp only [Core.syncAnswer, hwalk, Res.ok_bind] at hanswer; cases hanswer
        | segment after =>
          simp only [Core.syncAnswer] at hanswer
          obtain ⟨batch, -, hanswer⟩ := Res.bind_eq_ok hanswer
          cases hanswer
      rw [hq] at hlen
      exact absurd hlen (Nat.not_lt.2 (length_sample_le (Nat.le_of_not_lt hshort)))
    · exact .inl ⟨stepped, hstep⟩
  · rw [front] at htalks
    obtain ⟨a, stepped, hanswer, hstep, -⟩ := htalks.serverAsks h.there.serves
    exact ⟨a, stepped, hanswer, hstep⟩
  · rw [idle, front] at htalks
    obtain ⟨stepped, hstep, -⟩ := htalks.pullerReceives
    exact ⟨stepped, hstep⟩
  · rw [idle, front] at htalks
    obtain ⟨stepped, hstep, -⟩ := htalks.serverReceives
    exact ⟨stepped, hstep⟩

end Survives

/-- However the two nodes move in between, a session between nodes of one `Init` keeps to the
protocol, ingests one run of the server's log, and ends at the same place on both sides. -/
theorem Pull.Runs.survives {contents : Set SignedPortion} (laws : DigestLaws contents) {start : Envelope}
    (content : start.toSignedPortion ∈ contents) {here there : Core} (hhere : here.Grown contents start)
    (hthere : there.Grown contents start) {pullerHead head : EnvelopeDigest} {p : Pull}
    (run : Pull.Runs contents head (Pull.opening here there pullerHead) p) : p.Survives head := by
  obtain ⟨W, rfl, hfull⟩ := hhere.exists_world laws content
  have honest : p.Honest False W head := by
    induction run with
    | opening => exact ⟨hfull here hhere, hfull there hthere, Pull.opening_talks here there pullerHead⟩
    | step _ step ih => exact ih.step step
    | here _ move ih => exact ih.here_moves move
    | there _ move ih => exact ih.there_moves id move
  exact honest.survives_of_honest

end IrohLotus.Lotusd

/-! ## The samples -/

namespace IrohLotus.Lotusd

open Std Outcome Forest IrohLotus.Wire IrohLotus.Wire.Sample IrohLotus.Storage IrohLotus.State IrohLotus.Sync

/-- A node at genesis. -/
def genesisCore : Core := ⟨⟨genesisDigest, ⟨genesisDigest⟩⟩, genesisStore, genesisDigest⟩

/-- A node two envelopes on. -/
def linearCore : Core := (genesisCore.insertBatch [first, second]).2

theorem grown_genesisCore : genesisCore.Grown Sample.contents genesis := by
  have hrun : Chain.init genesis (MemStorage.empty 0) = (.ok ⟨genesisDigest, ⟨genesisDigest⟩⟩, genesisStore) := by
    decide +kernel
  exact .init hrun

theorem grown_linearCore : linearCore.Grown Sample.contents genesis := by
  have hmem : ∀ e ∈ [first, second], e.toSignedPortion ∈ table.map Prod.fst := by decide +kernel
  exact .moves grown_genesisCore (.insertBatch hmem)

/-- A session of the two up to the split. -/
def splitPull : Pull := (Pull.opening genesisCore linearCore genesisDigest).drive secondDigest 11

/-- The rest of it, once the server moved on. -/
def movedPull : Pull :=
  { splitPull with there := (splitPull.there.insertBatch [third]).2 }.drive secondDigest 20

theorem survives_movedPull :
    Pull.Runs Sample.contents secondDigest (Pull.opening genesisCore linearCore genesisDigest) movedPull ∧
      movedPull.puller.pending = [.done (.synced thirdDigest 3)] ∧ movedPull.Survives secondDigest := by
  have hmem : ∀ e ∈ [third], e.toSignedPortion ∈ table.map Prod.fst := by decide +kernel
  have hgenesis : genesis.toSignedPortion ∈ table.map Prod.fst := by decide +kernel
  have hsplit : Pull.Runs Sample.contents secondDigest (Pull.opening genesisCore linearCore genesisDigest) splitPull :=
    Pull.Runs.opening.steps (Pull.drive_steps 11 _)
  have hrun : Pull.Runs Sample.contents secondDigest (Pull.opening genesisCore linearCore genesisDigest) movedPull :=
    (hsplit.there (.insertBatch hmem)).steps (Pull.drive_steps 20 _)
  have hdone : movedPull.puller.pending = [.done (.synced thirdDigest 3)] := by decide +kernel
  exact ⟨hrun, hdone, Pull.Runs.survives sample_laws hgenesis grown_genesisCore grown_linearCore hrun⟩

end IrohLotus.Lotusd
