/-
A node that serves a pull (`sync_driver::serve`) to a peer that may send anything, while it inserts and
compacts between any two queries of the session. The session panics nowhere, the core answers whatever is
asked, and what goes out is one linked run of canonical paths the node stood at, from an entry of the
locator the peer sent.
-/
import IrohLotus.Lotusd.Locate

namespace IrohLotus.Lotusd

open Std Outcome Forest IrohLotus.Wire IrohLotus.Storage IrohLotus.State IrohLotus.Sync

/-! ## The model -/

section Model

variable [Externals]

/-- What a node does between two queries of a session: it moves on, or runs a compaction pass. -/
inductive Core.Goes (contents : Set SignedPortion) (core : Core) : Core → Prop
  | moves {core' : Core} (move : core.Moves contents core') : Goes contents core core'
  | compact (cutoff : Option StoredAt) (keep : ℕ+) (minPrune : Nat) (pinned : ExtTreeSet EnvelopeDigest) :
    Goes contents core (core.compactBefore cutoff keep minPrune pinned).2

/-- A node beside the session it serves: its core, the cores it stood at since the session began, and the
machine under its driver. -/
structure Serve where
  core : Core
  stood : List Core
  session : Session Server.State ServeOutcome

/-- A session about to be served. -/
def Serve.opening (core : Core) : Serve := ⟨core, [core], Server.opening⟩

variable [Encoding]

/-- One step, for a machine that was made with the core at `head`. The peer's frames are whatever it sends. -/
inductive Serve.Step (contents : Set SignedPortion) (head : EnvelopeDigest) (r : Serve) : Serve → Prop
  | goes {core : Core} (goes : r.core.Goes contents core) :
      Step contents head r { r with core, stood := core :: r.stood }
  | sends {message : Message} {pending : List (Effect ServeOutcome)}
      (front : r.session.pending = .send message :: pending) :
    Step contents head r { r with session := { r.session with pending } }
  | asks {query : Query} {answer : Answer} {pending : List (Effect ServeOutcome)}
    {stepped : Server.State × List (Effect ServeOutcome)} (front : r.session.pending = .ask query :: pending)
    (answered : r.core.syncAnswer query = .ok answer)
    (took : Server.step head r.session.machine (.answer answer) = .ok stepped) :
    Step contents head r { r with session := r.session.next (.answer answer) pending stepped }
  | receives {message : Message} {stepped : Server.State × List (Effect ServeOutcome)} (idle : r.session.pending = [])
    (took : Server.step head r.session.machine (.message message) = .ok stepped) :
    Step contents head r { r with session := r.session.next (.message message) [] stepped }

/-- The sessions a node can come to serve from `core` on. -/
def Serve.Runs (contents : Set SignedPortion) (core : Core) : Serve → Prop :=
  Relation.ReflTransGen (Serve.Step contents core.head) (.opening core)

end Model

/-! ## What a session leaves behind -/

/-- The split points a server sent, oldest first. -/
def splits (effects : List (Effect ServeOutcome)) : List EnvelopeDigest :=
  effects.filterMap fun
    | .send (.split at') => some at'
    | _ => none

@[simp] theorem splits_append (es fs : List (Effect ServeOutcome)) : splits (es ++ fs) = splits es ++ splits fs := by
  unfold splits
  exact List.filterMap_append

/-- The digest is on the canonical path of a core the node stood at. -/
def OnPath (stood : List Core) (d : EnvelopeDigest) : Prop := ∃ core ∈ stood, Desc core.storage.parent d core.head

/-- The batch is a lawful one, and was on the canonical path of a core the node stood at. -/
structure Streamed (stood : List Core) (batch : List Envelope) : Prop where
  positive : 1 ≤ batch.length
  cap : batch.length ≤ MAX_BATCH_ENVELOPES
  onPath : ∃ core ∈ stood, ∀ e ∈ batch, ∃ d, core.storage.envelope d = some e ∧ Desc core.storage.parent d core.head

theorem OnPath.mono {stood : List Core} {core : Core} {d : EnvelopeDigest} (h : OnPath stood d) :
    OnPath (core :: stood) d := by
  obtain ⟨k, hk, hd⟩ := h
  exact ⟨k, List.mem_cons_of_mem _ hk, hd⟩

theorem Streamed.mono {stood : List Core} {core : Core} {batch : List Envelope} (h : Streamed stood batch) :
    Streamed (core :: stood) batch := by
  obtain ⟨k, hk, hbatch⟩ := h.onPath
  exact ⟨h.positive, h.cap, k, List.mem_cons_of_mem _ hk, hbatch⟩

section Faithful

variable [Externals]

/-- The run streamed so far: from the one split point sent, an entry of a locator of the peer's, to `tip`. -/
structure Serve.Ran (stood : List Core) (fed : List Input) (effects : List (Effect ServeOutcome))
    (tip : EnvelopeDigest) : Prop where
  start : ∃ at' locator, splits effects = [at'] ∧ Input.message (.findSplit locator) ∈ fed ∧ at' ∈ locator ∧
    OnPath stood at' ∧
    Linked at' (streamed effects).flatten tip
  batches : ∀ batch ∈ streamed effects, Streamed stood batch

/-- What a served session may be said to have done, whoever the peer is. -/
structure Serve.Faithful [Encoding] (head : EnvelopeDigest) (r : Serve) : Prop where
  /-- The core answers what the machine asks, and the machine takes the answer. -/
  answers : ∀ query pending, r.session.pending = .ask query :: pending → ∃ answer stepped,
    r.core.syncAnswer query = .ok answer ∧ Server.step head r.session.machine (.answer answer) = .ok stepped
  /-- Whatever the peer sends where the driver reads on, the machine takes. -/
  takes : r.session.pending = [] → ∀ message, ∃ stepped,
    Server.step head r.session.machine (.message message) = .ok stepped
  /-- What was streamed is one linked run of lawful batches, none without a split point. -/
  run : splits r.session.effects = [] ∧ streamed r.session.effects = [] ∨
    ∃ tip, Serve.Ran r.stood r.session.fed r.session.effects tip
  /-- `Served` names where the run ends, and counts it. -/
  served : ∀ tip sent, Effect.done (.served tip sent) ∈ r.session.effects →
    Serve.Ran r.stood r.session.fed r.session.effects tip ∧ sent = (streamed r.session.effects).flatten.length
  /-- It ends once, and stays ended. -/
  once : (endings r.session.effects).length ≤ 1 ∧ (endings r.session.effects ≠ [] → r.session.machine = .terminal)

/-! ## Where a session stands -/

/-- Before the split point. -/
structure Serve.Early (effects : List (Effect ServeOutcome)) : Prop where
  unsplit : splits effects = []
  nothing : streamed effects = []
  unended : endings effects = []

/-- What is pending in each state, and what was streamed by then. -/
inductive Serve.Standing (stood : List Core) (fed : List Input) (effects : List (Effect ServeOutcome)) :
    Server.State → List (Effect ServeOutcome) → Prop
  | greeting (early : Early effects) : Standing stood fed effects .awaitHello []
  | finding {pending : List (Effect ServeOutcome)} (queue : pending = [] ∨ ∃ m, pending = [.send m])
      (early : Early effects) :
    Standing stood fed effects .awaitFindSplit pending
  | splitting {locator : List EnvelopeDigest} (heard : Input.message (.findSplit locator) ∈ fed)
      (early : Early effects) :
    Standing stood fed effects .awaitSplitPoint [.ask (.splitPoint locator)]
  | streaming {cursor : EnvelopeDigest} {sent : Nat} {pending : List (Effect ServeOutcome)}
    (queue : pending = [.ask (.segment cursor)] ∨ ∃ m, pending = [.send m, .ask (.segment cursor)])
    (ran : Serve.Ran stood fed effects cursor) (count : sent = (streamed effects).flatten.length)
    (unended : endings effects = []) : Standing stood fed effects (.awaitSegment cursor sent) pending
  | ended {e : Effect ServeOutcome} {pending : List (Effect ServeOutcome)}
      (last : (∃ b, e = .violation b) ∨ ∃ o, e = .done o)
    (queue : pending = [e] ∨ ∃ m, pending = [.send m, e]) (ending : endings effects = [e])
    (run : splits effects = [] ∧ streamed effects = [] ∨ ∃ tip, Serve.Ran stood fed effects tip)
    (served : ∀ tip sent, e = .done (.served tip sent) →
      Serve.Ran stood fed effects tip ∧ sent = (streamed effects).flatten.length) :
    Standing stood fed effects .terminal pending

namespace Serve

variable {contents : Set SignedPortion} {stood : List Core} {fed : List Input} {effects : List (Effect ServeOutcome)}
  {core : Core} {tip cursor head : EnvelopeDigest}

/-- The node may move on. -/
theorem Ran.mono (h : Ran stood fed effects tip) : Ran (core :: stood) fed effects tip := by
  obtain ⟨at', locator, hsplits, hfed, hat, hpath, hlinked⟩ := h.start
  exact ⟨⟨at', locator, hsplits, hfed, hat, hpath.mono, hlinked⟩, fun batch hbatch => (h.batches batch hbatch).mono⟩

theorem Standing.mono {state : Server.State} {pending : List (Effect ServeOutcome)}
    (h : Standing stood fed effects state pending) : Standing (core :: stood) fed effects state pending := by
  cases h with
  | greeting early => exact .greeting early
  | finding queue early => exact .finding queue early
  | splitting heard early => exact .splitting heard early
  | streaming queue ran count unended => exact .streaming queue ran.mono count unended
  | ended last queue ending run served =>
    refine .ended last queue ending (run.imp_right fun h => ?_) fun tip sent he =>
      ⟨(served tip sent he).1.mono, (served tip sent he).2⟩
    obtain ⟨tip, ran⟩ := h
    exact ⟨tip, ran.mono⟩

/-- Effects that stream nothing leave the run as it is. -/
theorem Ran.extend (h : Ran stood fed effects tip) (more : List Input) {es : List (Effect ServeOutcome)}
    (hsplits : splits es = []) (hstreamed : streamed es = []) : Ran stood (fed ++ more) (effects ++ es) tip := by
  obtain ⟨at', locator, hone, hfed, hat, hpath, hlinked⟩ := h.start
  refine ⟨⟨at', locator, ?_, List.mem_append_left _ hfed, hat, hpath, ?_⟩, ?_⟩
  · rw [splits_append, hsplits, List.append_nil]; exact hone
  · rw [streamed_append, hstreamed, List.append_nil]; exact hlinked
  · rw [streamed_append, hstreamed, List.append_nil]; exact h.batches

/-- A batch that links onto the run prolongs it. -/
theorem Ran.stream (h : Ran stood fed effects cursor) (more : List Input) {batch : List Envelope}
    (hbatch : Streamed stood batch) (linked : Linked cursor batch tip) :
    Ran stood (fed ++ more) (effects ++ [.send (.envelopes batch), .ask (.segment tip)]) tip := by
  have hstreamed : streamed (effects ++ [.send (.envelopes batch), .ask (.segment tip)]) =
    streamed effects ++ [batch] :=
    streamed_append ..
  obtain ⟨at', locator, hone, hfed, hat, hpath, hlinked⟩ := h.start
  refine ⟨⟨at', locator, ?_, List.mem_append_left _ hfed, hat, hpath, ?_⟩, fun b hb => ?_⟩
  · rw [splits_append]; exact (List.append_nil _).trans hone
  · rw [hstreamed, List.flatten_append, List.flatten_singleton]; exact hlinked.append linked
  · rw [hstreamed] at hb
    rcases List.mem_append.1 hb with hb | hb
    · exact h.batches b hb
    · rw [List.mem_singleton.1 hb]; exact hbatch

/-! ## One step -/

/-- What a step of a standing session comes to. -/
def Steps (head : EnvelopeDigest) (stood : List Core) (fed : List Input) (effects : List (Effect ServeOutcome))
    (state : Server.State) (input : Input) : Prop :=
  ∃ stepped, Server.step head state input = .ok stepped ∧
    Standing stood (fed ++ [input]) (effects ++ stepped.2) stepped.1 ([] ++ stepped.2)

/-- A session that breaks off before anything was streamed. -/
theorem Early.breach (h : Early effects) {state : Server.State} {input : Input} {b : Breach}
    (hstep : Server.step head state input = Server.breach b) : Steps head stood fed effects state input := by
  refine ⟨_, hstep, .ended (.inl ⟨b, rfl⟩) (.inl rfl) ?_ (.inl ⟨?_, ?_⟩) fun tip sent he => ?_⟩
  · rw [endings_append, h.unended]; rfl
  · rw [splits_append, h.unsplit]; rfl
  · rw [streamed_append, h.nothing]; rfl
  · cases he

omit [Externals] in
/-- An effect that neither ends nor streams anything. -/
theorem Early.extend (h : Early effects) {es : List (Effect ServeOutcome)} (hsplits : splits es = [])
    (hstreamed : streamed es = []) (hendings : endings es = []) : Early (effects ++ es) := by
  refine ⟨?_, ?_, ?_⟩
  · rw [splits_append, h.unsplit, hsplits]; rfl
  · rw [streamed_append, h.nothing, hstreamed]; rfl
  · rw [endings_append, h.unended, hendings]; rfl

theorem greeting_steps (h : Early effects) (message : Message) :
    Steps head stood fed effects .awaitHello (.message message) := by
  cases message with
  | hello version peer =>
    by_cases hv : version = PROTOCOL_VERSION
    · exact ⟨_, if_neg (not_not.2 hv), .finding (.inr ⟨_, rfl⟩) (h.extend rfl rfl rfl)⟩
    · exact h.breach (if_pos hv)
  | findSplit _ => exact h.breach rfl
  | split _ => exact h.breach rfl
  | noSplit => exact h.breach rfl
  | envelopes _ => exact h.breach rfl
  | caughtUp => exact h.breach rfl
  | announce _ => exact h.breach rfl

theorem finding_steps (h : Early effects) (message : Message) :
    Steps head stood fed effects .awaitFindSplit (.message message) := by
  cases message with
  | findSplit locator =>
    by_cases hempty : locator.isEmpty = true
    · exact h.breach (if_pos hempty)
    by_cases hlong : locator.length > MAX_LOCATOR_LEN
    · exact h.breach ((if_neg hempty).trans (if_pos hlong))
    · refine ⟨_, (if_neg hempty).trans (if_neg hlong), .splitting ?_ (h.extend rfl rfl rfl)⟩
      exact List.mem_append_right _ (List.mem_singleton.2 rfl)
  | hello _ _ => exact h.breach rfl
  | split _ => exact h.breach rfl
  | noSplit => exact h.breach rfl
  | envelopes _ => exact h.breach rfl
  | caughtUp => exact h.breach rfl
  | announce _ => exact h.breach rfl

theorem splitting_steps (h : Early effects) {locator : List EnvelopeDigest}
    (heard : Input.message (.findSplit locator) ∈ fed)
    {at' : Option EnvelopeDigest} (hat : ∀ d, at' = some d → d ∈ locator ∧ OnPath stood d) :
    Steps head stood fed effects .awaitSplitPoint (.answer (.splitPoint at')) := by
  cases at' with
  | none =>
    refine ⟨_, rfl, .ended (.inr ⟨_, rfl⟩) (.inr ⟨_, rfl⟩) ?_ (.inl ⟨?_, ?_⟩) fun tip sent he => ?_⟩
    · rw [endings_append, h.unended]; rfl
    · rw [splits_append, h.unsplit]; rfl
    · rw [streamed_append, h.nothing]; rfl
    · cases he
  | some d =>
    obtain ⟨hmem, hpath⟩ := hat d rfl
    have hnone : streamed (effects ++ [.send (.split d), .ask (.segment d)]) = [] := by
      rw [streamed_append, h.nothing]; rfl
    refine ⟨_, rfl, .streaming (.inr ⟨_, rfl⟩) ⟨⟨d, locator, ?_, List.mem_append_left _ heard, hmem, hpath,
      ?_⟩, ?_⟩ ?_ ?_⟩
    · rw [splits_append, h.unsplit]; rfl
    · rw [hnone]; exact .nil
    · rw [hnone]; exact nofun
    · rw [hnone]; rfl
    · rw [endings_append, h.unended]; rfl

theorem streaming_steps {sent : Nat} (h : Ran stood fed effects cursor)
    (count : sent = (streamed effects).flatten.length)
    (unended : endings effects = []) {batch : List Envelope} (linked : Linked cursor batch tip)
    (hbatch : batch ≠ [] → Streamed stood batch) :
    Steps head stood fed effects (.awaitSegment cursor sent) (.answer (.segment batch)) := by
  by_cases hempty : batch = []
  · subst hempty
    refine ⟨_, rfl, .ended (.inr ⟨_, rfl⟩) (.inr ⟨_, rfl⟩) ?_ (.inr ⟨_, h.extend _ rfl rfl⟩) fun tip' sent' he => ?_⟩
    · rw [endings_append, unended]; rfl
    · cases he
      refine ⟨h.extend _ rfl rfl, ?_⟩
      rw [streamed_append, List.flatten_append, List.length_append]
      exact count
  · have hstreamed := hbatch hempty
    have hstep : Server.step head (.awaitSegment cursor sent) (.answer (.segment batch)) =
        .ok (.awaitSegment tip (sent + batch.length), [.send (.envelopes batch), .ask (.segment tip)]) := by
      have hisEmpty : batch.isEmpty = false := List.isEmpty_eq_false_iff.2 hempty
      unfold Server.step
      simp only [hisEmpty, Bool.false_eq_true, if_false,
        Server.segmentTip_of_linked linked hempty hstreamed.cap, Res.ok_bind]
      rfl
    refine ⟨_, hstep, .streaming (.inr ⟨_, rfl⟩) (h.stream _ hstreamed linked) ?_ ?_⟩
    · rw [streamed_append, List.flatten_append, List.length_append, count]
      simp [streamed]
    · rw [endings_append, unended]; rfl

variable [Encoding]

/-- A core in any state it can come to answers what the machine asks, and the session stands again. -/
theorem Standing.asked (laws : DigestLaws contents) (rooted : core.Rooted contents) (hcore : core ∈ stood)
    {state : Server.State} {query : Query} {pending : List (Effect ServeOutcome)}
    (h : Standing stood fed effects state (.ask query :: pending)) :
    ∃ answer, core.syncAnswer query = .ok answer ∧ pending = [] ∧
      Steps head stood fed effects state (.answer answer) := by
  obtain ⟨W, rfl, hgood⟩ := rooted.reachable.good laws
  cases h with
  | finding queue early =>
    rcases queue with hq | ⟨m, hq⟩
    · cases hq
    · cases hq
  | @splitting locator heard early =>
    obtain ⟨path, hwalk, hline⟩ := core.walkCanonical_eq_ok hgood.acyclic
    have hanswer : core.syncAnswer (.splitPoint locator) = .ok (.splitPoint (splitPoint locator path)) := by
      simp only [Core.syncAnswer, hwalk, Res.ok_bind]; rfl
    refine ⟨_, hanswer, rfl, splitting_steps early heard fun d hd => ?_⟩
    obtain ⟨hlocator, hpath⟩ := mem_of_splitPoint hd
    exact ⟨hlocator, core, hcore, hline.mem_iff.1 hpath⟩
  | @streaming cursor sent _ queue ran count unended =>
    rcases queue with hq | ⟨m, hq⟩
    · cases hq
      obtain ⟨batch, tip, hseg, his⟩ := Core.segment_eq_ok hgood.coherent cursor
      have hanswer : core.syncAnswer (.segment cursor) = .ok (.segment batch) := by
        simp only [Core.syncAnswer, hseg, Res.ok_bind]; rfl
      refine ⟨_, hanswer, rfl, streaming_steps ran count unended his.linked fun hne => ?_⟩
      exact ⟨List.length_pos_iff.2 hne, his.cap, core, hcore, his.stored⟩
    · cases hq
  | ended last queue ending run served =>
    rcases queue with hq | ⟨m, hq⟩
    · cases hq
      rcases last with ⟨b, hb⟩ | ⟨o, ho⟩
      · cases hb
      · cases ho
    · cases hq

omit [Encoding] in
/-- Whatever the peer sends where the driver reads on, the machine takes, and the session stands again. -/
theorem Standing.heard {state : Server.State} (h : Standing stood fed effects state []) (message : Message) :
    Steps head stood fed effects state (.message message) := by
  cases h with
  | greeting early => exact greeting_steps early message
  | finding queue early => exact finding_steps early message
  | streaming queue ran count unended =>
    rcases queue with hq | ⟨m, hq⟩
    · cases hq
    · cases hq
  | ended last queue ending run served =>
    rcases queue with hq | ⟨m, hq⟩
    · cases hq
    · cases hq

omit [Encoding] in
/-- Writing a frame leaves the session standing. -/
theorem Standing.sent {state : Server.State} {m : Message} {rest : List (Effect ServeOutcome)}
    (h : Standing stood fed effects state (.send m :: rest)) : Standing stood fed effects state rest := by
  cases h with
  | finding queue early =>
    rcases queue with hq | ⟨m', hq⟩
    · cases hq
    · cases hq; exact .finding (.inl rfl) early
  | streaming queue ran count unended =>
    rcases queue with hq | ⟨m', hq⟩
    · cases hq
    · cases hq; exact .streaming (.inl rfl) ran count unended
  | ended last queue ending run served =>
    rcases queue with hq | ⟨m', hq⟩
    · cases hq
      rcases last with ⟨b, hb⟩ | ⟨o, ho⟩
      · cases hb
      · cases ho
    · cases hq; exact .ended last (.inl rfl) ending run served

/-! ## Runs -/

/-- What is kept of a served session: the node stands at a core it can come to, and the session stands. -/
structure Kept (contents : Set SignedPortion) (r : Serve) : Prop where
  reached : r.core.Reached contents
  stood : r.core ∈ r.stood
  standing : Standing r.stood r.session.fed r.session.effects r.session.machine r.session.pending

theorem Kept.step (laws : DigestLaws contents) {r r' : Serve} (h : r.Kept contents) (step : Step contents head r r') :
    r'.Kept contents := by
  cases step with
  | goes goes =>
    cases goes with
    | moves move => exact ⟨.moves h.reached move, List.mem_cons_self, h.standing.mono⟩
    | compact cutoff keep minPrune pinned => exact ⟨.compactBefore h.reached cutoff keep minPrune pinned,
        List.mem_cons_self, h.standing.mono⟩
  | sends front =>
    have hstanding := h.standing
    rw [front] at hstanding
    exact ⟨h.reached, h.stood, hstanding.sent⟩
  | asks front answered took =>
    have hstanding := h.standing
    rw [front] at hstanding
    obtain ⟨answer, hanswer, rfl, stepped, hstep, hstands⟩ := hstanding.asked laws (h.reached.rooted laws).1 h.stood
    rw [answered] at hanswer; cases hanswer
    rw [took] at hstep; cases hstep
    exact ⟨h.reached, h.stood, hstands⟩
  | @receives message _ idle took =>
    have hstanding := h.standing
    rw [idle] at hstanding
    obtain ⟨stepped, hstep, hstands⟩ := hstanding.heard message
    rw [took] at hstep; cases hstep
    exact ⟨h.reached, h.stood, hstands⟩

theorem Runs.kept (laws : DigestLaws contents) (reached : core.Reached contents) {r : Serve}
    (run : Runs contents core r) :
    r.Kept contents := by
  induction run with
  | refl => exact ⟨reached, List.mem_singleton_self _, .greeting ⟨rfl, rfl, rfl⟩⟩
  | tail _ step ih => exact ih.step laws step

omit [Encoding] in
/-- What has ended a session is all that ended it. -/
theorem Standing.endings {state : Server.State} {pending : List (Effect ServeOutcome)}
    (h : Standing stood fed effects state pending) :
    (Lotusd.endings effects).length ≤ 1 ∧ (Lotusd.endings effects ≠ [] → state = .terminal) := by
  cases h with
  | greeting early => simp [early.unended]
  | finding _ early => simp [early.unended]
  | splitting _ early => simp [early.unended]
  | streaming _ _ _ unended => simp [unended]
  | ended _ _ ending _ _ => simp [ending]

omit [Encoding] in
theorem Standing.run {state : Server.State} {pending : List (Effect ServeOutcome)}
    (h : Standing stood fed effects state pending) :
    splits effects = [] ∧ streamed effects = [] ∨ ∃ tip, Ran stood fed effects tip := by
  cases h with
  | greeting early => exact .inl ⟨early.unsplit, early.nothing⟩
  | finding _ early => exact .inl ⟨early.unsplit, early.nothing⟩
  | splitting _ early => exact .inl ⟨early.unsplit, early.nothing⟩
  | streaming _ ran _ _ => exact .inr ⟨_, ran⟩
  | ended _ _ _ run _ => exact run

omit [Encoding] in
theorem Standing.served {state : Server.State} {pending : List (Effect ServeOutcome)}
    (h : Standing stood fed effects state pending) {sent : Nat} (hdone : Effect.done (.served tip sent) ∈ effects) :
    Ran stood fed effects tip ∧ sent = (streamed effects).flatten.length := by
  have hmem := mem_endings_done.2 hdone
  cases h with
  | greeting early => rw [early.unended] at hmem; cases hmem
  | finding _ early => rw [early.unended] at hmem; cases hmem
  | splitting _ early => rw [early.unended] at hmem; cases hmem
  | streaming _ _ _ unended => rw [unended] at hmem; cases hmem
  | ended _ _ ending _ served =>
    rw [ending] at hmem
    exact served tip sent (List.mem_singleton.1 hmem).symm

/-- Whatever a peer sends, and whatever the node inserts or compacts in between: the session it is served
panics nowhere and is always answered, what is streamed to it is one linked run of canonical paths the
node stood at, from an entry of a locator it sent, and the outcome names that run. -/
theorem Runs.streams_canonical (laws : DigestLaws contents) (reached : core.Reached contents) {r : Serve}
    (run : Runs contents core r) :
    r.Faithful core.head := by
  have h := run.kept laws reached
  refine ⟨fun query pending front => ?_, fun idle message => ?_, h.standing.run, fun tip sent => h.standing.served,
    h.standing.endings⟩
  · have hstanding := h.standing
    rw [front] at hstanding
    obtain ⟨answer, hanswer, -, stepped, hstep, -⟩ := hstanding.asked laws (h.reached.rooted laws).1 h.stood
    exact ⟨answer, stepped, hanswer, hstep⟩
  · have hstanding := h.standing
    rw [idle] at hstanding
    obtain ⟨stepped, hstep, -⟩ := hstanding.heard message
    exact ⟨stepped, hstep⟩

end Serve

end Faithful

end IrohLotus.Lotusd

/-! ## The samples -/

namespace IrohLotus.Lotusd

open Std Outcome Forest IrohLotus.Wire IrohLotus.Wire.Sample IrohLotus.Storage IrohLotus.State IrohLotus.Sync

/-- The steps of a driver with these frames to read: the effect at the front, or the next frame. -/
def Serve.drive (head : EnvelopeDigest) : List Message → ℕ → Serve → Serve
  | _, 0, r => r
  | frames, fuel + 1, r =>
    match r.session.pending, frames with
    | .send _ :: pending, _ => drive head frames fuel { r with session := { r.session with pending } }
    | .ask query :: pending, _ =>
      match r.core.syncAnswer query with
      | .error _ => r
      | .ok answer =>
        match Server.step head r.session.machine (.answer answer) with
        | .error _ => r
        | .ok stepped => drive head frames fuel { r with session := r.session.next (.answer answer) pending stepped }
    | [], message :: frames =>
      match Server.step head r.session.machine (.message message) with
      | .error _ => r
      | .ok stepped => drive head frames fuel { r with session := r.session.next (.message message) [] stepped }
    | _, _ => r

theorem Serve.drive_steps {contents : Set SignedPortion} {head : EnvelopeDigest} :
    ∀ (frames : List Message) (fuel : ℕ) (r : Serve),
    Relation.ReflTransGen (Serve.Step contents head) r (r.drive head frames fuel)
  | _, 0, r => .refl
  | frames, fuel + 1, r => by
    unfold Serve.drive
    split
    · rename_i front
      exact .head (.sends front) (drive_steps _ fuel _)
    · rename_i front
      split
      · exact .refl
      · rename_i answered
        split
        · exact .refl
        · rename_i took
          exact .head (.asks front answered took) (drive_steps _ fuel _)
    · rename_i idle
      split
      · exact .refl
      · rename_i took
        exact .head (.receives idle took) (drive_steps _ fuel _)
    · exact .refl

/-- A session up to the first batch, for a peer that offers `genesis` alone. -/
def batchServe : Serve := (Serve.opening linearCore).drive secondDigest
    [.hello PROTOCOL_VERSION genesisDigest, .findSplit [genesisDigest]] 6

/-- The node takes `third` in, and prunes all below it. -/
def thirdCore : Core := (linearCore.insertBatch [third]).2

def thirdPruned : Core := (thirdCore.compactBefore (some 1) ⟨1, Nat.one_pos⟩ 1 ∅).2

/-- The rest of the session. -/
def prunedServe : Serve :=
  { batchServe with core := thirdPruned, stood := thirdPruned :: thirdCore :: batchServe.stood }.drive
    secondDigest [] 20

theorem streams_canonical_pruned : thirdPruned.storage.envelope secondDigest = none ∧
    prunedServe.session.pending = [.done (.served thirdDigest 3)] ∧ prunedServe.Faithful secondDigest := by
  have hmem : ∀ e ∈ [third], e.toSignedPortion ∈ table.map Prod.fst := by decide +kernel
  have hfirst : Serve.Runs Sample.contents linearCore batchServe := Serve.drive_steps _ 6 _
  have hmoved := (hfirst.tail (.goes (.moves (.insertBatch hmem)))).tail
    (.goes (.compact (some 1) ⟨1, Nat.one_pos⟩ 1 ∅))
  have hrun : Serve.Runs Sample.contents linearCore prunedServe := hmoved.trans (Serve.drive_steps [] 20 _)
  exact ⟨by decide +kernel, by decide +kernel, Serve.Runs.streams_canonical sample_laws reached_linearCore hrun⟩

end IrohLotus.Lotusd
