/-
The pulling side of a session (`sync::Puller`), and what it guarantees whatever the peer sends: it
never panics on a driver that keeps its contract, and all it ever ingests is one linked run that
starts at an entry of the locator it sent.
-/
import IrohLotus.Sync.Driver
import IrohLotus.Wire.Sample

namespace IrohLotus.Sync.Puller

open Outcome IrohLotus.Wire

/-! ## The machine -/

inductive State where
  | awaitHello
  | awaitContains
  | awaitLocator
  | awaitSplit (locator : List EnvelopeDigest)
  | awaitBatch (cursor : EnvelopeDigest) (ingested : Nat)
  | awaitIngest (cursor : EnvelopeDigest) (ingested pending : Nat)
  | terminal
deriving DecidableEq

/-- What the protocol admits next, for breach diagnostics. -/
def State.expecting : State → String
  | .awaitHello => "Hello"
  | .awaitSplit _ => "Split or NoSplit"
  | .awaitBatch _ _ => "Envelopes or CaughtUp"
  | .awaitContains | .awaitLocator | .awaitIngest _ _ _ => "no frame while an effect is unresolved"
  | .terminal => "nothing"

/-- What a step leaves: the next state, and the effects to resolve. -/
abbrev Stepped := Res Empty (State × List (Effect PullOutcome))

/-- A machine for a node at `head`, and the first message to send. -/
def new (head : EnvelopeDigest) : State × Effect PullOutcome := (.awaitHello, .send (.hello PROTOCOL_VERSION head))

def breach (breach : Breach) : Stepped := pure (.terminal, [.violation breach])

/-- A locator within its bounds. -/
def Lawful (locator : List EnvelopeDigest) : Prop := 1 ≤ locator.length ∧ locator.length ≤ MAX_LOCATOR_LEN

variable [Externals]

/-- The digest a batch ends at, each envelope checked to chain onto the one before. -/
def tip (cursor : EnvelopeDigest) (batch : List Envelope) : Except Breach EnvelopeDigest :=
  batch.foldlM (fun expected envelope =>
    if envelope.prev ≠ some expected then .error (.brokenRun expected)
    else envelope.digest.mapError .undigestable) cursor

/-- One input (`Puller::step`). -/
def step : State → Input → Stepped
  | .awaitHello, .message (.hello version head) =>
    if version ≠ PROTOCOL_VERSION then breach (.version PROTOCOL_VERSION version)
    else pure (.awaitContains, [.ask (.containsEnvelope head)])
  | .awaitContains, .answer (.contains true) => pure (.terminal, [.done .alreadyCurrent])
  | .awaitContains, .answer (.contains false) => pure (.awaitLocator, [.ask .locator])
  | .awaitLocator, .answer (.locator locator) =>
    if !locator.isEmpty && locator.length ≤ MAX_LOCATOR_LEN then
      pure (.awaitSplit locator, [.send (.findSplit locator)])
    else .error (.panic "own core must sample 1..=64 locator entries")
  | .awaitSplit locator, .message (.split at') =>
    if locator.contains at' then pure (.awaitBatch at' 0, []) else breach (.splitNotInLocator at')
  | .awaitSplit _, .message .noSplit => pure (.terminal, [.done .noCommonHistory])
  | .awaitBatch cursor ingested, .message (.envelopes batch) =>
    if batch.isEmpty then breach .emptyBatch
    else if batch.length > MAX_BATCH_ENVELOPES then breach (.oversizedBatch batch.length)
    else
      match tip cursor batch with
      | .ok tip => pure (.awaitIngest tip ingested batch.length, [.ingest batch])
      | .error b => breach b
  | .awaitBatch cursor ingested, .message .caughtUp => pure (.terminal, [.done (.synced cursor ingested)])
  | .awaitIngest cursor ingested pending, .ingested => pure (.awaitBatch cursor (ingested + pending), [])
  -- a frame the phase does not admit is the peer's breach
  | .awaitHello, .message message => breach (.unexpected message.kind State.awaitHello.expecting)
  | .awaitSplit locator, .message message => breach (.unexpected message.kind (State.awaitSplit locator).expecting)
  | .awaitBatch cursor ingested, .message message =>
    breach (.unexpected message.kind (State.awaitBatch cursor ingested).expecting)
  -- while everything below is the driver breaking its contract
  | .awaitContains, .message _ | .awaitLocator, .message _ | .awaitIngest _ _ _, .message _ =>
    .error (.panic "driver fed a frame while an Ask or Ingest was unresolved")
  | .terminal, _ => .error (.panic "driver fed input after the session ended")
  | _, .answer _ => .error (.panic "driver answered a query nothing asked for, or answered in the wrong shape")
  | _, .ingested => .error (.panic "driver reported an ingest nothing requested")

theorem tip_eq_ok : ∀ {batch : List Envelope} {cursor t : EnvelopeDigest}, tip cursor batch = .ok t → Linked cursor batch t
  | [], cursor, t, h => by
    obtain rfl : cursor = t := Except.ok.inj h
    exact .nil
  | e :: batch, cursor, t, h => by
    rw [tip, List.foldlM_cons] at h
    by_cases hprev : e.prev = some cursor
    · rw [if_neg (not_not.2 hprev)] at h
      cases hd : e.digest with
      | error err => rw [hd] at h; cases h
      | ok d =>
        rw [hd] at h
        exact .cons hprev hd (tip_eq_ok h)
    · rw [if_pos hprev] at h; cases h

theorem tip_of_linked {batch : List Envelope} {cursor t : EnvelopeDigest} (h : Linked cursor batch t) :
    tip cursor batch = .ok t := by
  induction h with
  | nil => rfl
  | cons prev digest _ ih =>
    rw [tip, List.foldlM_cons, if_neg (not_not.2 prev), digest]
    exact ih

/-! ## Whatever the peer sends -/

/-- What a session left behind: one linked run out of a locator it sent, in batches of a lawful
size, and an outcome that names that run. -/
structure Sound (s : Session State PullOutcome) : Prop where
  /-- Whatever the driver may feed next, the machine takes. -/
  takes : ∀ input pending, Feeds s.pending input pending → ∃ stepped, step s.machine input = .ok stepped
  /-- All that was ingested is one linear run, which starts at the split point. -/
  run : (ingests s.effects).flatten ≠ [] → ∃ at' tip locator, splitOf s.fed = some at' ∧
    Effect.send (.findSplit locator) ∈ s.effects ∧ at' ∈ locator ∧ Linked at' (ingests s.effects).flatten tip
  /-- Every batch is of a lawful size, and none holds an `Init`. -/
  batches : ∀ batch ∈ ingests s.effects, 1 ≤ batch.length ∧ batch.length ≤ MAX_BATCH_ENVELOPES ∧
    ∀ e ∈ batch, ∀ msg, e.payload ≠ .init msg
  /-- `Synced` names the last envelope ingested, or the split point, and counts them all. -/
  synced : ∀ head ingested, Effect.done (.synced head ingested) ∈ s.effects →
    ingested = (ingests s.effects).flatten.length ∧
      match (ingests s.effects).flatten.getLast? with
      | some e => e.digest = .ok head
      | none => splitOf s.fed = some head

/-- The run ingested so far: from the split point to `tip`. -/
structure Ran (fed : List Input) (effects : List (Effect PullOutcome)) (tip : EnvelopeDigest) : Prop where
  start : ∃ at' locator, splitOf fed = some at' ∧ Effect.send (.findSplit locator) ∈ effects ∧ at' ∈ locator ∧
    Linked at' (ingests effects).flatten tip
  sizes : ∀ batch ∈ ingests effects, 1 ≤ batch.length ∧ batch.length ≤ MAX_BATCH_ENVELOPES

/-- No outcome yet. -/
def Undone (effects : List (Effect PullOutcome)) : Prop := ∀ outcome, Effect.done outcome ∉ effects

/-- Before the peer named a split point. -/
structure Early (fed : List Input) (effects : List (Effect PullOutcome)) : Prop where
  nothing : ingests effects = []
  unsplit : splitOf fed = none
  undone : Undone effects

/-- Where a session can stand: what is pending in each state, and what was ingested by then. -/
inductive Standing (fed : List Input) (effects : List (Effect PullOutcome)) : State → List (Effect PullOutcome) → Prop
  | greeting {pending : List (Effect PullOutcome)} (queue : pending = [] ∨ ∃ m, pending = [.send m])
    (early : Early fed effects) : Standing fed effects .awaitHello pending
  | containing {head : EnvelopeDigest} (early : Early fed effects) :
    Standing fed effects .awaitContains [.ask (.containsEnvelope head)]
  | locating (early : Early fed effects) : Standing fed effects .awaitLocator [.ask .locator]
  | splitting {locator : List EnvelopeDigest} {pending : List (Effect PullOutcome)}
    (queue : pending = [] ∨ ∃ m, pending = [.send m]) (early : Early fed effects)
    (sent : Effect.send (.findSplit locator) ∈ effects) : Standing fed effects (.awaitSplit locator) pending
  | streaming {cursor : EnvelopeDigest} {ingested : Nat} (ran : Ran fed effects cursor)
    (count : ingested = (ingests effects).flatten.length) (undone : Undone effects) :
    Standing fed effects (.awaitBatch cursor ingested) []
  | ingesting {cursor : EnvelopeDigest} {ingested : Nat} {batch : List Envelope} (ran : Ran fed effects cursor)
    (count : ingested + batch.length = (ingests effects).flatten.length) (undone : Undone effects) :
    Standing fed effects (.awaitIngest cursor ingested batch.length) [.ingest batch]
  | ended {e : Effect PullOutcome} (last : (∃ b, e = .violation b) ∨ ∃ o, e = .done o)
    (ran : ingests effects = [] ∨ ∃ tip, Ran fed effects tip)
    (synced : ∀ head ingested, Effect.done (.synced head ingested) ∈ effects →
      Ran fed effects head ∧ ingested = (ingests effects).flatten.length) : Standing fed effects .terminal [e]

section Standing

variable {fed : List Input} {effects : List (Effect PullOutcome)} {tip cursor : EnvelopeDigest}

/-- An effect that ingests nothing and ends nothing. -/
def Neutral : Effect PullOutcome → Prop
  | .send _ | .ask _ | .violation _ => True
  | .ingest _ | .done _ => False

omit [Externals] in
theorem ingests_neutral {e : Effect PullOutcome} (h : Neutral e) : ingests (effects ++ [e]) = ingests effects := by
  cases e <;> simp [Neutral, ingests] at h ⊢

omit [Externals] in
theorem Undone.neutral (h : Undone effects) {e : Effect PullOutcome} (he : Neutral e) : Undone (effects ++ [e]) := by
  intro outcome hmem
  rcases List.mem_append.1 hmem with hmem | hmem
  · exact h outcome hmem
  · obtain rfl := List.mem_singleton.1 hmem
    exact he

omit [Externals] in
theorem Early.neutral (h : Early fed effects) (e : Effect PullOutcome) (he : Neutral e) {input : Input}
    (hi : splitOf [input] = none) : Early (fed ++ [input]) (effects ++ [e]) where
  nothing := (ingests_neutral he).trans h.nothing
  unsplit := (splitOf_append_none h.unsplit _).trans hi
  undone := h.undone.neutral he

/-- What was ingested stands while the session goes on without ingesting more. -/
theorem Ran.extend (h : Ran fed effects tip) (more : List Input) {es : List (Effect PullOutcome)} (hes : ingests es = []) :
    Ran (fed ++ more) (effects ++ es) tip := by
  have hsame : ingests (effects ++ es) = ingests effects := by rw [ingests_append, hes, List.append_nil]
  obtain ⟨at', locator, hsplit, hsent, hat, hrun⟩ := h.start
  refine ⟨⟨at', locator, splitOf_append_some hsplit more, List.mem_append_left _ hsent, hat, ?_⟩, ?_⟩
  · rw [hsame]; exact hrun
  · rw [hsame]; exact h.sizes

/-- A batch that links onto the tip extends the run. -/
theorem Ran.ingest (h : Ran fed effects cursor) (more : List Input) {batch : List Envelope}
    (hlen : 1 ≤ batch.length ∧ batch.length ≤ MAX_BATCH_ENVELOPES) (hrun : Linked cursor batch tip) :
    Ran (fed ++ more) (effects ++ [.ingest batch]) tip := by
  obtain ⟨at', locator, hsplit, hsent, hat, hbefore⟩ := h.start
  have hing : ingests (effects ++ [.ingest batch]) = ingests effects ++ [batch] := by rw [ingests_append]; rfl
  refine ⟨⟨at', locator, splitOf_append_some hsplit more, List.mem_append_left _ hsent, hat, ?_⟩, ?_⟩
  · rw [hing, List.flatten_append, List.flatten_singleton]
    exact hbefore.append hrun
  · intro b hb
    rw [hing] at hb
    rcases List.mem_append.1 hb with hb | hb
    · exact h.sizes b hb
    · obtain rfl := List.mem_singleton.1 hb
      exact hlen

/-- A session that ends without `Synced` ends where it stood. -/
theorem Standing.stop (ran : ingests effects = [] ∨ ∃ tip, Ran fed effects tip) (undone : Undone effects)
    {e : Effect PullOutcome} (last : (∃ b, e = .violation b) ∨ e = .done .alreadyCurrent ∨ e = .done .noCommonHistory)
    (input : Input) : Standing (fed ++ [input]) (effects ++ [e]) .terminal ([] ++ [e]) := by
  have hes : ingests [e] = [] := by rcases last with ⟨b, rfl⟩ | rfl | rfl <;> rfl
  refine .ended ?_ ?_ ?_
  · rcases last with h | h | h
    · exact .inl h
    · exact .inr ⟨_, h⟩
    · exact .inr ⟨_, h⟩
  · rcases ran with hnone | ⟨tip, hran⟩
    · exact .inl (by rw [ingests_append, hes, hnone]; rfl)
    · exact .inr ⟨tip, hran.extend _ hes⟩
  · intro head ingested hmem
    rcases List.mem_append.1 hmem with hmem | hmem
    · exact absurd hmem (undone _)
    · rw [← List.mem_singleton.1 hmem] at last
      rcases last with ⟨b, hb⟩ | hd | hd
      · cases hb
      · cases hd
      · cases hd

/-- What a step of a standing session comes to. -/
def Steps (fed : List Input) (effects : List (Effect PullOutcome)) (state : State) (input : Input) : Prop :=
  ∃ stepped, step state input = .ok stepped ∧
    Standing (fed ++ [input]) (effects ++ stepped.2) stepped.1 ([] ++ stepped.2)

theorem Early.stop (h : Early fed effects) {state : State} {input : Input} {e : Effect PullOutcome}
    (last : (∃ b, e = .violation b) ∨ e = .done .alreadyCurrent ∨ e = .done .noCommonHistory)
    (hstep : step state input = .ok (.terminal, [e])) : Steps fed effects state input :=
  ⟨_, hstep, .stop (.inl h.nothing) h.undone last input⟩

theorem Early.breach (h : Early fed effects) {state : State} {input : Input} {b : Breach}
    (hstep : step state input = Puller.breach b) : Steps fed effects state input :=
  h.stop (.inl ⟨b, rfl⟩) hstep

theorem Ran.breach (h : Ran fed effects tip) (undone : Undone effects) {state : State} {input : Input} {b : Breach}
    (hstep : step state input = Puller.breach b) : Steps fed effects state input :=
  ⟨_, hstep, .stop (.inr ⟨tip, h⟩) undone (.inl ⟨b, rfl⟩) input⟩

theorem greeting_steps (h : Early fed effects) (message : Message) : Steps fed effects .awaitHello (.message message) := by
  cases message with
  | hello version head =>
    by_cases hv : version = PROTOCOL_VERSION
    · subst hv
      exact ⟨_, rfl, .containing (h.neutral (.ask _) trivial rfl)⟩
    · exact h.breach (if_pos hv)
  | findSplit _ => exact h.breach rfl
  | split _ => exact h.breach rfl
  | noSplit => exact h.breach rfl
  | envelopes _ => exact h.breach rfl
  | caughtUp => exact h.breach rfl
  | announce _ => exact h.breach rfl

theorem containing_steps (h : Early fed effects) (stored : Bool) :
    Steps fed effects .awaitContains (.answer (.contains stored)) := by
  cases stored with
  | true => exact h.stop (.inr (.inl rfl)) rfl
  | false => exact ⟨_, rfl, .locating (h.neutral (.ask _) trivial rfl)⟩

theorem locating_steps (h : Early fed effects) {locator : List EnvelopeDigest} (hsome : 1 ≤ locator.length)
    (hcap : locator.length ≤ MAX_LOCATOR_LEN) : Steps fed effects .awaitLocator (.answer (.locator locator)) := by
  have hne : (!locator.isEmpty && decide (locator.length ≤ MAX_LOCATOR_LEN)) = true := by
    cases locator with
    | nil => simp at hsome
    | cons d ds => simpa using hcap
  refine ⟨_, if_pos hne, .splitting (.inr ⟨_, rfl⟩) (h.neutral (.send _) trivial rfl) ?_⟩
  exact List.mem_append_right _ (List.mem_singleton.2 rfl)

theorem splitting_steps (h : Early fed effects) {locator : List EnvelopeDigest}
    (hsent : Effect.send (.findSplit locator) ∈ effects) (message : Message) :
    Steps fed effects (.awaitSplit locator) (.message message) := by
  cases message with
  | split at' =>
    by_cases hat : locator.contains at' = true
    · refine ⟨(.awaitBatch at' 0, []), if_pos hat, ?_⟩
      have hsplit : splitOf (fed ++ [.message (.split at')]) = some at' := splitOf_append_none h.unsplit _
      simp only [List.append_nil]
      refine .streaming ⟨⟨at', locator, hsplit, hsent, List.contains_iff_mem.1 hat, ?_⟩, ?_⟩ ?_ h.undone
      · rw [h.nothing]; exact .nil
      · rw [h.nothing]; exact nofun
      · rw [h.nothing]; rfl
    · exact h.breach (if_neg hat)
  | noSplit => exact h.stop (.inr (.inr rfl)) rfl
  | hello _ _ => exact h.breach rfl
  | findSplit _ => exact h.breach rfl
  | envelopes _ => exact h.breach rfl
  | caughtUp => exact h.breach rfl
  | announce _ => exact h.breach rfl

theorem streaming_steps {ingested : Nat} (h : Ran fed effects cursor)
    (hcount : ingested = (ingests effects).flatten.length) (undone : Undone effects) (message : Message) :
    Steps fed effects (.awaitBatch cursor ingested) (.message message) := by
  cases message with
  | envelopes batch =>
    by_cases hempty : batch.isEmpty = true
    · exact h.breach undone (if_pos hempty)
    by_cases hcap : batch.length > MAX_BATCH_ENVELOPES
    · exact h.breach undone ((if_neg hempty).trans (if_pos hcap))
    have hlen : 1 ≤ batch.length ∧ batch.length ≤ MAX_BATCH_ENVELOPES := by
      refine ⟨?_, Nat.le_of_not_lt hcap⟩
      cases batch with
      | nil => exact absurd rfl hempty
      | cons e es => exact Nat.succ_pos _
    have hstep : step (.awaitBatch cursor ingested) (.message (.envelopes batch)) =
        (match Puller.tip cursor batch with
        | .ok tip => pure (.awaitIngest tip ingested batch.length, [.ingest batch])
        | .error b => Puller.breach b) := (if_neg hempty).trans (if_neg hcap)
    cases htip : Puller.tip cursor batch with
    | error b => exact h.breach undone (by rw [hstep, htip])
    | ok tip =>
      refine ⟨_, by rw [hstep, htip]; rfl, .ingesting (h.ingest _ hlen (tip_eq_ok htip)) ?_ ?_⟩
      · simp [hcount, ingests]
      · intro outcome hmem
        rcases List.mem_append.1 hmem with hmem | hmem
        · exact undone outcome hmem
        · cases List.mem_singleton.1 hmem
  | caughtUp =>
    have hsame : ingests (effects ++ [.done (.synced cursor ingested)]) = ingests effects := by
      rw [ingests_append]; exact List.append_nil _
    refine ⟨_, rfl, .ended (.inr ⟨_, rfl⟩) (.inr ⟨cursor, h.extend _ rfl⟩) ?_⟩
    intro head count hmem
    rcases List.mem_append.1 hmem with hmem | hmem
    · exact absurd hmem (undone _)
    · cases List.mem_singleton.1 hmem
      exact ⟨h.extend _ rfl, by rw [hsame]; exact hcount⟩
  | hello _ _ => exact h.breach undone rfl
  | findSplit _ => exact h.breach undone rfl
  | split _ => exact h.breach undone rfl
  | noSplit => exact h.breach undone rfl
  | announce _ => exact h.breach undone rfl

/-- The machine takes whatever the driver may feed it, and the session stands again. -/
theorem Standing.step {state : State} {pending rest : List (Effect PullOutcome)} {input : Input}
    (h : Standing fed effects state pending) (hfeeds : Feeds pending input rest) :
    ∃ stepped, Puller.step state input = .ok stepped ∧
      Standing (fed ++ [input]) (effects ++ stepped.2) stepped.1 (rest ++ stepped.2) := by
  cases h with
  | greeting queue early =>
    rcases queue with rfl | ⟨m, rfl⟩
    · cases hfeeds with | frame message => exact greeting_steps early message
    · cases hfeeds
  | containing early =>
    cases hfeeds with | answer admits => cases admits with | contains => exact containing_steps early _
  | locating early =>
    cases hfeeds with | answer admits => cases admits with | locator hsome hcap => exact locating_steps early hsome hcap
  | splitting queue early sent =>
    rcases queue with rfl | ⟨m, rfl⟩
    · cases hfeeds with | frame message => exact splitting_steps early sent message
    · cases hfeeds
  | streaming ran count undone =>
    cases hfeeds with | frame message => exact streaming_steps ran count undone message
  | ingesting ran count undone =>
    cases hfeeds with
    | ingested =>
      refine ⟨_, rfl, ?_⟩
      simp only [List.append_nil]
      refine .streaming ?_ count undone
      have hran : Ran (fed ++ [.ingested]) (effects ++ []) _ := ran.extend _ rfl
      rwa [List.append_nil] at hran
  | ended last ran synced =>
    rcases last with ⟨b, rfl⟩ | ⟨o, rfl⟩
    · cases hfeeds
    · cases hfeeds

/-- Writing a frame leaves the session standing. -/
theorem Standing.sent {state : State} {m : Message} {rest : List (Effect PullOutcome)}
    (h : Standing fed effects state (.send m :: rest)) : Standing fed effects state rest := by
  cases h with
  | greeting queue early =>
    rcases queue with hq | ⟨m', hq⟩
    · cases hq
    · cases hq; exact .greeting (.inl rfl) early
  | splitting queue early sent =>
    rcases queue with hq | ⟨m', hq⟩
    · cases hq
    · cases hq; exact .splitting (.inl rfl) early sent
  | ended last _ _ =>
    rcases last with ⟨b, hb⟩ | ⟨o, ho⟩
    · cases hb
    · cases ho

end Standing

/-- A pull session of a node at `head`, before anything was sent. -/
def opening (head : EnvelopeDigest) : Session State PullOutcome := .opening (new head).1 [(new head).2]

theorem standing {head : EnvelopeDigest} {s : Session State PullOutcome} (h : Driven step (opening head) s) :
    Standing s.fed s.effects s.machine s.pending := by
  induction h with
  | opening =>
    refine .greeting (.inr ⟨_, rfl⟩) ⟨rfl, rfl, ?_⟩
    intro outcome hmem
    cases List.mem_singleton.1 hmem
  | sent before front ih =>
    rw [front] at ih
    exact ih.sent
  | fed before feeds took ih =>
    obtain ⟨stepped, hstep, hstands⟩ := ih.step feeds
    rw [took] at hstep
    cases hstep
    exact hstands

theorem Standing.ran {fed : List Input} {effects pending : List (Effect PullOutcome)} {state : State}
    (h : Standing fed effects state pending) : ingests effects = [] ∨ ∃ tip, Ran fed effects tip := by
  cases h with
  | greeting _ early => exact .inl early.nothing
  | containing early => exact .inl early.nothing
  | locating early => exact .inl early.nothing
  | splitting _ early _ => exact .inl early.nothing
  | streaming ran _ _ => exact .inr ⟨_, ran⟩
  | ingesting ran _ _ => exact .inr ⟨_, ran⟩
  | ended _ ran _ => exact ran

theorem Standing.synced {fed : List Input} {effects pending : List (Effect PullOutcome)} {state : State}
    (h : Standing fed effects state pending) {head : EnvelopeDigest} {ingested : Nat}
    (hmem : Effect.done (.synced head ingested) ∈ effects) :
    Ran fed effects head ∧ ingested = (ingests effects).flatten.length := by
  cases h with
  | greeting _ early => exact absurd hmem (early.undone _)
  | containing early => exact absurd hmem (early.undone _)
  | locating early => exact absurd hmem (early.undone _)
  | splitting _ early _ => exact absurd hmem (early.undone _)
  | streaming _ _ undone => exact absurd hmem (undone _)
  | ingesting _ _ undone => exact absurd hmem (undone _)
  | ended _ _ synced => exact synced _ _ hmem

/-- Against any peer, a pull session driven by the loop panics nowhere, ingests one linked run out
of a locator it sent, and reports that run. -/
theorem session_sound {head : EnvelopeDigest} {s : Session State PullOutcome} (h : Driven step (opening head) s) : Sound s := by
  have hs := standing h
  refine ⟨?_, ?_, ?_, ?_⟩
  · intro input pending hfeeds
    obtain ⟨stepped, hstep, _⟩ := hs.step hfeeds
    exact ⟨stepped, hstep⟩
  · intro hne
    rcases hs.ran with hnone | ⟨tip, ran⟩
    · exact absurd (by rw [hnone]; rfl) hne
    · obtain ⟨at', locator, hsplit, hsent, hat, hrun⟩ := ran.start
      exact ⟨at', tip, locator, hsplit, hsent, hat, hrun⟩
  · intro batch hbatch
    rcases hs.ran with hnone | ⟨tip, ran⟩
    · rw [hnone] at hbatch; cases hbatch
    · obtain ⟨at', locator, _, _, _, hrun⟩ := ran.start
      refine ⟨(ran.sizes batch hbatch).1, (ran.sizes batch hbatch).2, ?_⟩
      intro e he
      exact hrun.not_init e (List.mem_flatten.2 ⟨batch, hbatch, he⟩)
  · intro head ingested hmem
    obtain ⟨ran, hcount⟩ := hs.synced hmem
    refine ⟨hcount, ?_⟩
    obtain ⟨at', locator, hsplit, _, _, hrun⟩ := ran.start
    have htip := hrun.tip_eq
    cases hlast : (ingests s.effects).flatten.getLast? with
    | some e => rw [hlast] at htip; exact htip
    | none => rw [hlast] at htip; rw [hsplit, htip]

end IrohLotus.Sync.Puller

namespace IrohLotus.Sync.Puller

open Outcome IrohLotus.Wire IrohLotus.Wire.Sample

/-- A node at genesis that pulled `first` and `second` in one batch. -/
def pulled : Session State PullOutcome where
  machine := .terminal
  pending := [.done (.synced secondDigest 2)]
  fed := [.message (.hello 1 secondDigest), .answer (.contains false), .answer (.locator [genesisDigest]),
    .message (.split genesisDigest), .message (.envelopes [first, second]), .ingested, .message .caughtUp]
  effects := [.send (.hello 1 genesisDigest), .ask (.containsEnvelope secondDigest), .ask .locator,
    .send (.findSplit [genesisDigest]), .ingest [first, second], .done (.synced secondDigest 2)]

theorem session_sound_pulled : Driven step (opening genesisDigest) pulled ∧ Sound pulled := by
  have opened := Driven.sent (@Driven.opening _ _ step (opening genesisDigest)) rfl
  have greeted := opened.fed (.frame (.hello 1 secondDigest)) rfl
  have missing := greeted.fed (.answer (@Query.Admits.contains secondDigest false)) rfl
  have located := missing.fed (.answer (@Query.Admits.locator [genesisDigest] (by decide) (by decide))) rfl
  have split := (located.sent rfl).fed (.frame (.split genesisDigest)) rfl
  have streamed := split.fed (.frame (.envelopes [first, second])) rfl
  have h : Driven step (opening genesisDigest) pulled := (streamed.fed .ingested rfl).fed (.frame .caughtUp) rfl
  exact ⟨h, session_sound h⟩

end IrohLotus.Sync.Puller
