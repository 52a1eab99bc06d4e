/-
A pull session between two nodes: the two machines under their drivers, the frames on their way in
each direction, and the two cores that answer. What one machine awaits is what the other has under
way, whatever happens to the cores in between, so an honest session breaks no rule of the protocol.
-/
import IrohLotus.Lotusd.Answer
import IrohLotus.Sync.Puller
import IrohLotus.Sync.Server

namespace IrohLotus.Lotusd

open Std Outcome Forest IrohLotus.Wire IrohLotus.Storage IrohLotus.State IrohLotus.Sync

/-! ## The model -/

/-- A core after a batch went in, and what it answered. -/
def Core.insertBatch [Externals] (core : Core) (envelopes : List Envelope) : Res Error Insert × Core :=
  let (outcome, chain, storage) := core.chain.insertBatch envelopes core.storage
  (outcome, { core with chain, storage })

/-- The node that pulls, the node that serves, their machines, and the frames under way, oldest first. -/
structure Pull where
  here : Core
  there : Core
  puller : Session Puller.State PullOutcome
  server : Session Server.State ServeOutcome
  toServer : List Message
  toPuller : List Message

/-- A session about to start, for machines that were made with the cores at these heads. -/
def Pull.opening (here there : Core) (pullerHead : EnvelopeDigest) : Pull :=
  { here, there, puller := Puller.opening pullerHead, server := Server.opening, toServer := [], toPuller := [] }

section Step

variable [Externals] [Encoding]

/-- One step of a session whose server was made with its core at `head`: a driver resolves the
effect at its front, or with none pending reads the next frame. -/
inductive Pull.Step (head : EnvelopeDigest) : Pull → Pull → Prop
  | pullerSends {p : Pull} {message : Message} {pending : List (Effect PullOutcome)}
    (front : p.puller.pending = .send message :: pending) :
    Step head p { p with puller := { p.puller with pending }, toServer := p.toServer ++ [message] }
  | pullerAsks {p : Pull} {query : Query} {answer : Answer} {pending : List (Effect PullOutcome)}
    {stepped : Puller.State × List (Effect PullOutcome)} (front : p.puller.pending = .ask query :: pending)
    (answered : p.here.syncAnswer query = .ok answer) (took : Puller.step p.puller.machine (.answer answer) = .ok stepped) :
    Step head p { p with puller := p.puller.next (.answer answer) pending stepped }
  | pullerIngests {p : Pull} {batch : List Envelope} {insert : Insert} {here : Core} {pending : List (Effect PullOutcome)}
    {stepped : Puller.State × List (Effect PullOutcome)} (front : p.puller.pending = .ingest batch :: pending)
    (inserted : p.here.insertBatch batch = (.ok insert, here)) (took : Puller.step p.puller.machine .ingested = .ok stepped) :
    Step head p { p with here, puller := p.puller.next .ingested pending stepped }
  | pullerReceives {p : Pull} {message : Message} {frames : List Message}
    {stepped : Puller.State × List (Effect PullOutcome)} (idle : p.puller.pending = [])
    (front : p.toPuller = message :: frames)
    (took : Puller.step p.puller.machine (.message message.received) = .ok stepped) :
    Step head p { p with puller := p.puller.next (.message message.received) [] stepped, toPuller := frames }
  | serverSends {p : Pull} {message : Message} {pending : List (Effect ServeOutcome)}
    (front : p.server.pending = .send message :: pending) :
    Step head p { p with server := { p.server with pending }, toPuller := p.toPuller ++ [message] }
  | serverAsks {p : Pull} {query : Query} {answer : Answer} {pending : List (Effect ServeOutcome)}
    {stepped : Server.State × List (Effect ServeOutcome)} (front : p.server.pending = .ask query :: pending)
    (answered : p.there.syncAnswer query = .ok answer)
    (took : Server.step head p.server.machine (.answer answer) = .ok stepped) :
    Step head p { p with server := p.server.next (.answer answer) pending stepped }
  | serverReceives {p : Pull} {message : Message} {frames : List Message}
    {stepped : Server.State × List (Effect ServeOutcome)} (idle : p.server.pending = [])
    (front : p.toServer = message :: frames)
    (took : Server.step head p.server.machine (.message message.received) = .ok stepped) :
    Step head p { p with server := p.server.next (.message message.received) [] stepped, toServer := frames }

end Step

/-! ## The record of a session -/

/-- The batches a server streamed, oldest first. -/
def streamed (effects : List (Effect ServeOutcome)) : List (List Envelope) :=
  effects.filterMap fun
    | .send (.envelopes batch) => some batch
    | _ => none

/-- How a machine ended, if it did. -/
def endings {O : Type} (effects : List (Effect O)) : List (Effect O) :=
  effects.filter fun
    | .done _ | .violation _ => true
    | .send _ | .ask _ | .ingest _ => false

@[simp] theorem streamed_append (es fs : List (Effect ServeOutcome)) : streamed (es ++ fs) = streamed es ++ streamed fs := by
  unfold streamed
  exact List.filterMap_append

@[simp] theorem endings_append {O : Type} (es fs : List (Effect O)) : endings (es ++ fs) = endings es ++ endings fs := by
  unfold endings
  exact List.filter_append ..

/-! ## The conversation -/

/-- What is kept about the cores while a session goes on: of the locator the puller offered, of a
digest the puller's run has come to, of an envelope the server streamed, of where the server stands
and where it stops, of a locator it had no split for, and of a head the puller had already. -/
structure Terms where
  offered : List EnvelopeDigest → Prop
  reached : EnvelopeDigest → Prop
  sent : Envelope → Prop
  serving : EnvelopeDigest → Prop
  served : EnvelopeDigest → Prop
  unsplit : List EnvelopeDigest → Prop
  current : EnvelopeDigest → Prop

/-- Everything kept by the first is kept by the second. -/
structure Terms.Le (K K' : Terms) : Prop where
  offered : ∀ locator, K.offered locator → K'.offered locator
  reached : ∀ d, K.reached d → K'.reached d
  sent : ∀ e, K.sent e → K'.sent e
  serving : ∀ d, K.serving d → K'.serving d
  served : ∀ d, K.served d → K'.served d
  unsplit : ∀ locator, K.unsplit locator → K'.unsplit locator
  current : ∀ d, K.current d → K'.current d

/-- The frames of a stream the puller has still to see: the batches under way, and `CaughtUp` once
the server is through. -/
def coming (finished : Bool) (underway : List (List Envelope)) : List Message :=
  underway.map .envelopes ++ if finished then [.caughtUp] else []

/-- A server that streams: what it is about to do at `cursor` after `sent` envelopes, and the frames
ahead of the puller, which are those on the wire and the one about to be sent. -/
inductive Streams (cursor : EnvelopeDigest) (sent : Nat) :
    Bool → Server.State → List (Effect ServeOutcome) → List Message → List Message → Prop
  | asks {wire : List Message} :
    Streams cursor sent false (.awaitSegment cursor sent) [.ask (.segment cursor)] wire wire
  | sends {wire : List Message} {message : Message} :
    Streams cursor sent false (.awaitSegment cursor sent) [.send message, .ask (.segment cursor)] wire (wire ++ [message])
  | closes {wire : List Message} :
    Streams cursor sent true .terminal [.send .caughtUp, .done (.served cursor sent)] wire (wire ++ [.caughtUp])
  | closed {wire : List Message} : Streams cursor sent true .terminal [.done (.served cursor sent)] wire wire

variable [Externals]

/-- A stream from the split `at'`: the batches the puller `got` bring it to `mid`, and those under way
bring it on to the server's `cursor`. -/
structure Flow (K : Terms) (pulled : List (Effect PullOutcome)) (served : List (Effect ServeOutcome))
    (at' mid cursor : EnvelopeDigest) (got underway : List (List Envelope)) (finished : Bool) : Prop where
  arrived : Linked at' got.flatten mid
  ahead : Linked mid underway.flatten cursor
  sizes : ∀ batch ∈ underway, batch ≠ [] ∧ batch.length ≤ MAX_BATCH_ENVELOPES
  split : Effect.send (.split at') ∈ served
  sent : ∀ e ∈ (got ++ underway).flatten, K.sent e
  serving : K.serving cursor
  ended : finished = true → K.served cursor
  streamed : streamed served = got ++ underway
  ingests : ingests pulled = got.map (List.map received)
  pulling : endings pulled = []
  ending : endings served = if finished then [.done (.served cursor (got ++ underway).flatten.length)] else []

/-- Nothing streamed, ingested or ended yet. -/
structure Early (pulled : List (Effect PullOutcome)) (served : List (Effect ServeOutcome)) : Prop where
  ingests : ingests pulled = []
  pulling : endings pulled = []
  streamed : streamed served = []
  serving : endings served = []

/-- Where a session between honest nodes can stand: the puller's state, what its driver has to
resolve and what it has on the wire, and the same of the server. -/
inductive Talk (K : Terms) (head : EnvelopeDigest) (pulled : List (Effect PullOutcome))
    (served : List (Effect ServeOutcome)) : Puller.State → List (Effect PullOutcome) → List Message →
      Server.State → List (Effect ServeOutcome) → List Message → Prop
  | greets {ours : EnvelopeDigest} (early : Early pulled served) :
    Talk K head pulled served .awaitHello [.send (.hello PROTOCOL_VERSION ours)] [] .awaitHello [] []
  | greeting {ours : EnvelopeDigest} (early : Early pulled served) :
    Talk K head pulled served .awaitHello [] [.hello PROTOCOL_VERSION ours] .awaitHello [] []
  | returns (early : Early pulled served) :
    Talk K head pulled served .awaitHello [] [] .awaitFindSplit [.send (.hello PROTOCOL_VERSION head)] []
  | returning (early : Early pulled served) :
    Talk K head pulled served .awaitHello [] [] .awaitFindSplit [] [.hello PROTOCOL_VERSION head]
  | checks (early : Early pulled served) :
    Talk K head pulled served .awaitContains [.ask (.containsEnvelope head)] [] .awaitFindSplit [] []
  | current (had : K.current head) (nothing : ingests pulled = []) (ending : endings pulled = [.done .alreadyCurrent])
    (still : streamed served = []) (serving : endings served = []) :
    Talk K head pulled served .terminal [.done .alreadyCurrent] [] .awaitFindSplit [] []
  | locates (early : Early pulled served) :
    Talk K head pulled served .awaitLocator [.ask .locator] [] .awaitFindSplit [] []
  | offers {locator : List EnvelopeDigest} (early : Early pulled served) (lawful : Puller.Lawful locator)
    (offered : K.offered locator) :
    Talk K head pulled served (.awaitSplit locator) [.send (.findSplit locator)] [] .awaitFindSplit [] []
  | offering {locator : List EnvelopeDigest} (early : Early pulled served) (lawful : Puller.Lawful locator)
    (offered : K.offered locator) :
    Talk K head pulled served (.awaitSplit locator) [] [.findSplit locator] .awaitFindSplit [] []
  | splits {locator : List EnvelopeDigest} (early : Early pulled served) (offered : K.offered locator) :
    Talk K head pulled served (.awaitSplit locator) [] [] .awaitSplitPoint [.ask (.splitPoint locator)] []
  | refuses {locator : List EnvelopeDigest} (unsplit : K.unsplit locator) (nothing : ingests pulled = [])
    (pulling : endings pulled = []) (still : streamed served = []) (ending : endings served = [.done .noCommonHistory]) :
    Talk K head pulled served (.awaitSplit locator) [] [] .terminal [.send .noSplit, .done .noCommonHistory] []
  | refusing {locator : List EnvelopeDigest} (unsplit : K.unsplit locator) (nothing : ingests pulled = [])
    (pulling : endings pulled = []) (still : streamed served = []) (ending : endings served = [.done .noCommonHistory]) :
    Talk K head pulled served (.awaitSplit locator) [] [] .terminal [.done .noCommonHistory] [.noSplit]
  | parted {locator : List EnvelopeDigest} (unsplit : K.unsplit locator) (nothing : ingests pulled = [])
    (pulling : endings pulled = [.done .noCommonHistory]) (still : streamed served = [])
    (ending : endings served = [.done .noCommonHistory]) :
    Talk K head pulled served .terminal [.done .noCommonHistory] [] .terminal [.done .noCommonHistory] []
  | split {locator : List EnvelopeDigest} {at' cursor : EnvelopeDigest} {underway : List (List Envelope)} {finished : Bool}
    {state : Server.State} {pending : List (Effect ServeOutcome)} {wire ahead : List Message}
    (flow : Flow K pulled served at' at' cursor [] underway finished) (offered : at' ∈ locator) (reached : K.reached at')
    (streams : Streams cursor underway.flatten.length finished state pending wire ahead)
    (stream : ahead = .split at' :: coming finished underway) :
    Talk K head pulled served (.awaitSplit locator) [] [] state pending wire
  | streaming {at' mid cursor : EnvelopeDigest} {got underway : List (List Envelope)} {finished : Bool} {ingested : Nat}
    {state : Server.State} {pending : List (Effect ServeOutcome)} {wire ahead : List Message}
    (flow : Flow K pulled served at' mid cursor got underway finished) (count : ingested = got.flatten.length)
    (reached : K.reached mid)
    (streams : Streams cursor (got ++ underway).flatten.length finished state pending wire ahead)
    (stream : ahead = coming finished underway) :
    Talk K head pulled served (.awaitBatch mid ingested) [] [] state pending wire
  | ingesting {at' start mid cursor : EnvelopeDigest} {got underway : List (List Envelope)} {batch : List Envelope}
    {finished : Bool} {ingested count : Nat} {state : Server.State} {pending : List (Effect ServeOutcome)}
    {wire ahead : List Message} (flow : Flow K pulled served at' mid cursor got underway finished) (last : batch ∈ got)
    (linked : Linked start batch mid) (reached : K.reached start) (counts : ingested + count = got.flatten.length)
    (streams : Streams cursor (got ++ underway).flatten.length finished state pending wire ahead)
    (stream : ahead = coming finished underway) :
    Talk K head pulled served (.awaitIngest mid ingested count) [.ingest (batch.map received)] [] state pending wire
  | synced {at' cursor : EnvelopeDigest} {got : List (List Envelope)} {ingested : Nat} (arrived : Linked at' got.flatten cursor)
    (split : Effect.send (.split at') ∈ served) (reached : K.reached cursor) (ended : K.served cursor)
    (sent : ∀ e ∈ got.flatten, K.sent e) (count : ingested = got.flatten.length) (streamed : streamed served = got)
    (ingests : ingests pulled = got.map (List.map received)) (pulling : endings pulled = [.done (.synced cursor ingested)])
    (ending : endings served = [.done (.served cursor ingested)]) :
    Talk K head pulled served .terminal [.done (.synced cursor ingested)] [] .terminal [.done (.served cursor ingested)] []

/-! ## Terms kept -/

section Mono

variable {K K' : Terms} {head : EnvelopeDigest} {pulled : List (Effect PullOutcome)} {served : List (Effect ServeOutcome)}

theorem Flow.mono {at' mid cursor : EnvelopeDigest} {got underway : List (List Envelope)} {finished : Bool} (hle : K.Le K')
    (h : Flow K pulled served at' mid cursor got underway finished) :
    Flow K' pulled served at' mid cursor got underway finished :=
  { h with
    sent := fun e he => hle.sent e (h.sent e he)
    serving := hle.serving _ h.serving
    ended := fun hf => hle.served _ (h.ended hf) }

theorem Talk.mono {state : Puller.State} {pending : List (Effect PullOutcome)} {toServer toPuller : List Message}
    {state' : Server.State} {pending' : List (Effect ServeOutcome)} (hle : K.Le K')
    (h : Talk K head pulled served state pending toServer state' pending' toPuller) :
    Talk K' head pulled served state pending toServer state' pending' toPuller := by
  cases h with
  | greets early => exact .greets early
  | greeting early => exact .greeting early
  | returns early => exact .returns early
  | returning early => exact .returning early
  | checks early => exact .checks early
  | current had nothing ending still serving => exact .current (hle.current _ had) nothing ending still serving
  | locates early => exact .locates early
  | offers early lawful offered => exact .offers early lawful (hle.offered _ offered)
  | offering early lawful offered => exact .offering early lawful (hle.offered _ offered)
  | splits early offered => exact .splits early (hle.offered _ offered)
  | refuses unsplit nothing pulling still ending => exact .refuses (hle.unsplit _ unsplit) nothing pulling still ending
  | refusing unsplit nothing pulling still ending => exact .refusing (hle.unsplit _ unsplit) nothing pulling still ending
  | parted unsplit nothing pulling still ending => exact .parted (hle.unsplit _ unsplit) nothing pulling still ending
  | split flow offered reached streams stream => exact .split (flow.mono hle) offered (hle.reached _ reached) streams stream
  | streaming flow count reached streams stream =>
    exact .streaming (flow.mono hle) count (hle.reached _ reached) streams stream
  | ingesting flow last linked reached counts streams stream =>
    exact .ingesting (flow.mono hle) last linked (hle.reached _ reached) counts streams stream
  | synced arrived split reached ended sent count streamed ingests pulling ending =>
    exact .synced arrived split (hle.reached _ reached) (hle.served _ ended) (fun e he => hle.sent e (sent e he)) count
      streamed ingests pulling ending

end Mono

/-! ## Streaming -/

section Stream

variable {K : Terms} {pulled : List (Effect PullOutcome)} {served : List (Effect ServeOutcome)}
  {at' mid cursor tip : EnvelopeDigest} {got underway : List (List Envelope)} {batch : List Envelope} {finished : Bool}
  {sent : Nat} {state : Server.State} {pending : List (Effect ServeOutcome)} {wire ahead : List Message} {m : Message}

omit [Externals] in
theorem Streams.send (h : Streams cursor sent finished state (.send m :: pending) wire ahead) :
    Streams cursor sent finished state pending (wire ++ [m]) ahead := by
  cases h with
  | sends => exact .asks
  | closes => exact .closed

omit [Externals] in
theorem Streams.pop (h : Streams cursor sent finished state pending (m :: wire) ahead) :
    ∃ rest, ahead = m :: rest ∧ Streams cursor sent finished state pending wire rest := by
  cases h with
  | asks => exact ⟨wire, rfl, .asks⟩
  | sends => exact ⟨_, rfl, .sends⟩
  | closes => exact ⟨_, rfl, .closes⟩
  | closed => exact ⟨wire, rfl, .closed⟩

omit [Externals] in
/-- Once the puller saw the end of the stream nothing is left but the server's outcome. -/
theorem Streams.through (h : Streams cursor sent true state pending wire ahead) (hnil : ahead = []) :
    wire = [] ∧ state = .terminal ∧ pending = [.done (.served cursor sent)] := by
  cases h with
  | closes => simp at hnil
  | closed => exact ⟨hnil, rfl, rfl⟩

/-- One more batch goes on the wire. -/
theorem Flow.stream (h : Flow K pulled served at' mid cursor got underway false) (hlinked : Linked cursor batch tip)
    (hne : batch ≠ []) (hcap : batch.length ≤ MAX_BATCH_ENVELOPES) (hsent : ∀ e ∈ batch, K.sent e) (htip : K.serving tip)
    (query : Query) :
    Flow K pulled (served ++ [.send (.envelopes batch), .ask query]) at' mid tip got (underway ++ [batch]) false where
  arrived := h.arrived
  ahead := by
    rw [List.flatten_append, List.flatten_singleton]
    exact h.ahead.append hlinked
  sizes := by
    intro b hb
    rcases List.mem_append.1 hb with hb | hb
    · exact h.sizes b hb
    · obtain rfl := List.mem_singleton.1 hb
      exact ⟨hne, hcap⟩
  split := List.mem_append_left _ h.split
  sent := by
    intro e he
    rw [← List.append_assoc, List.flatten_append, List.flatten_singleton] at he
    rcases List.mem_append.1 he with he | he
    · exact h.sent e he
    · exact hsent e he
  serving := htip
  ended := nofun
  streamed := by
    rw [streamed_append, h.streamed, List.append_assoc]; rfl
  ingests := h.ingests
  pulling := h.pulling
  ending := by
    rw [endings_append, h.ending]; rfl

/-- The server is through. -/
theorem Flow.close (h : Flow K pulled served at' mid cursor got underway false) (hserved : K.served cursor) :
    Flow K pulled (served ++ [.send .caughtUp, .done (.served cursor (got ++ underway).flatten.length)]) at' mid cursor got
      underway true where
  arrived := h.arrived
  ahead := h.ahead
  sizes := h.sizes
  split := List.mem_append_left _ h.split
  sent := h.sent
  serving := h.serving
  ended := fun _ => hserved
  streamed := by
    rw [streamed_append, h.streamed]
    exact List.append_nil _
  ingests := h.ingests
  pulling := h.pulling
  ending := by
    rw [endings_append, h.ending]; rfl

/-- The puller takes the next batch off the wire. -/
theorem Flow.take (h : Flow K pulled served at' mid cursor got (batch :: underway) finished) :
    ∃ next, Linked mid batch next ∧ batch ≠ [] ∧ batch.length ≤ MAX_BATCH_ENVELOPES ∧
      Flow K (pulled ++ [.ingest (batch.map received)]) served at' next cursor (got ++ [batch]) underway finished := by
  obtain ⟨next, hbatch, hrest⟩ := h.ahead.split
  obtain ⟨hne, hcap⟩ := h.sizes batch List.mem_cons_self
  have hsplit : got ++ batch :: underway = (got ++ [batch]) ++ underway := by simp
  refine ⟨next, hbatch, hne, hcap, ?_⟩
  exact {
    arrived := by
      rw [List.flatten_append, List.flatten_singleton]
      exact h.arrived.append hbatch
    ahead := hrest
    sizes := fun b hb => h.sizes b (List.mem_cons_of_mem _ hb)
    split := h.split
    sent := hsplit ▸ h.sent
    serving := h.serving
    ended := h.ended
    streamed := hsplit ▸ h.streamed
    ingests := by
      rw [ingests_append, h.ingests, List.map_append]; rfl
    pulling := by
      rw [endings_append, h.pulling]; rfl
    ending := hsplit ▸ h.ending }

end Stream

/-! ## Each step of the conversation -/

variable [Encoding]

/-- The pulling core answers within the terms. -/
structure Terms.Pulls (K : Terms) (here : Core) : Prop where
  current : ∀ d, (here.storage.envelope d).isSome = true → K.current d
  locator : ∃ locator, here.syncAnswer .locator = .ok (.locator locator) ∧ locator ≠ [] ∧ K.offered locator

/-- The serving core answers within the terms: a split it was offered, and linked segments. -/
structure Terms.Serves (K : Terms) (there : Core) : Prop where
  split : ∀ locator, K.offered locator → ∃ at', there.syncAnswer (.splitPoint locator) = .ok (.splitPoint at') ∧
    (at' = none → K.unsplit locator) ∧ ∀ d, at' = some d → d ∈ locator ∧ K.serving d ∧ K.reached d
  segment : ∀ after, K.serving after → ∃ batch tip, there.syncAnswer (.segment after) = .ok (.segment batch) ∧
    Linked after batch tip ∧ batch.length ≤ MAX_BATCH_ENVELOPES ∧ (∀ e ∈ batch, K.sent e) ∧ K.serving tip ∧
    (batch = [] → K.served after)

section Steps

variable {K K' : Terms} {head : EnvelopeDigest} {pulled : List (Effect PullOutcome)} {served : List (Effect ServeOutcome)}
  {state : Puller.State} {pending : List (Effect PullOutcome)} {toServer toPuller : List Message}
  {state' : Server.State} {pending' : List (Effect ServeOutcome)} {m : Message} {q : Query} {here there : Core}

omit [Encoding] in
theorem Talk.pullerSends (h : Talk K head pulled served state (.send m :: pending) toServer state' pending' toPuller) :
    Talk K head pulled served state pending (toServer ++ [m]) state' pending' toPuller := by
  cases h with
  | greets early => exact .greeting early
  | offers early lawful offered => exact .offering early lawful offered

omit [Encoding] in
theorem Talk.serverSends (h : Talk K head pulled served state pending toServer state' (.send m :: pending') toPuller) :
    Talk K head pulled served state pending toServer state' pending' (toPuller ++ [m]) := by
  cases h with
  | returns early => exact .returning early
  | refuses unsplit nothing pulling still ending => exact .refusing unsplit nothing pulling still ending
  | split flow offered reached streams stream => exact .split flow offered reached streams.send stream
  | streaming flow count reached streams stream => exact .streaming flow count reached streams.send stream
  | ingesting flow last linked reached counts streams stream =>
    exact .ingesting flow last linked reached counts streams.send stream

/-- A puller's question is answered, and it takes the answer unless its own locator is out of bounds. -/
theorem Talk.pullerAsks (hK : K.Pulls here)
    (h : Talk K head pulled served state (.ask q :: pending) toServer state' pending' toPuller) :
    ∃ a, here.syncAnswer q = .ok a ∧ ((∃ locator, a = .locator locator ∧ MAX_LOCATOR_LEN < locator.length ∧
        ∃ halt, Puller.step state (.answer a) = .error halt) ∨
      ∃ stepped, Puller.step state (.answer a) = .ok stepped ∧
        Talk K head (pulled ++ stepped.2) served stepped.1 (pending ++ stepped.2) toServer state' pending' toPuller) := by
  cases h with
  | checks early =>
    refine ⟨_, rfl, .inr ?_⟩
    cases hstored : (here.storage.envelope head).isSome with
    | true =>
      refine ⟨_, rfl, .current (hK.current head hstored) ?_ ?_ early.streamed early.serving⟩
      · rw [ingests_append, early.ingests]; rfl
      · rw [endings_append, early.pulling]; rfl
    | false =>
      refine ⟨_, rfl, .locates ⟨?_, ?_, early.streamed, early.serving⟩⟩
      · rw [ingests_append, early.ingests]; rfl
      · rw [endings_append, early.pulling]; rfl
  | locates early =>
    obtain ⟨locator, hlocator, hne, hoffered⟩ := hK.locator
    refine ⟨_, hlocator, ?_⟩
    have hempty : (!locator.isEmpty) = true := by
      rw [Bool.not_eq_true', List.isEmpty_eq_false_iff]; exact hne
    by_cases hlen : locator.length ≤ MAX_LOCATOR_LEN
    · have hlawful : (!locator.isEmpty && decide (locator.length ≤ MAX_LOCATOR_LEN)) = true := by
        rw [hempty, decide_eq_true hlen]; rfl
      refine .inr ⟨_, if_pos hlawful, .offers ⟨?_, ?_, early.streamed, early.serving⟩
        ⟨List.length_pos_of_ne_nil hne, hlen⟩ hoffered⟩
      · rw [ingests_append, early.ingests]; rfl
      · rw [endings_append, early.pulling]; rfl
    · have hunlawful : ¬ (!locator.isEmpty && decide (locator.length ≤ MAX_LOCATOR_LEN)) = true := by
        rw [hempty, decide_eq_false hlen]; decide
      exact .inl ⟨locator, rfl, Nat.lt_of_not_le hlen, _, if_neg hunlawful⟩

/-- The answer to a server that streams: one more batch, or the end of the stream. -/
theorem Flow.serverAsks {at' mid cursor : EnvelopeDigest} {got underway : List (List Envelope)} {finished : Bool} {sent : Nat}
    {wire ahead : List Message} (hK : K.Serves there) (before : List Message)
    (flow : Flow K pulled served at' mid cursor got underway finished) (hsent : sent = (got ++ underway).flatten.length)
    (streams : Streams cursor sent finished state' (.ask q :: pending') wire ahead)
    (stream : ahead = before ++ coming finished underway) :
    ∃ a stepped, there.syncAnswer q = .ok a ∧ Server.step head state' (.answer a) = .ok stepped ∧
      ∃ cursor' underway' finished' ahead',
        Flow K pulled (served ++ stepped.2) at' mid cursor' got underway' finished' ∧
        Streams cursor' (got ++ underway').flatten.length finished' stepped.1 (pending' ++ stepped.2) wire ahead' ∧
        ahead' = before ++ coming finished' underway' := by
  cases streams with
  | asks =>
    obtain ⟨batch, tip, hbatch, hlinked, hcap, hterms, htip, hserved⟩ := hK.segment cursor flow.serving
    refine ⟨.segment batch, ?_⟩
    by_cases hnil : batch = []
    · subst hnil hsent
      refine ⟨_, hbatch, rfl, cursor, underway, true, wire ++ [.caughtUp], flow.close (hserved rfl), .closes, ?_⟩
      rw [stream, coming, coming]
      simp
    · have hempty : ¬ batch.isEmpty = true := fun h => hnil (List.isEmpty_iff.1 h)
      have hstep : Server.step head (.awaitSegment cursor sent) (.answer (.segment batch)) =
          .ok (.awaitSegment tip (sent + batch.length), [.send (.envelopes batch), .ask (.segment tip)]) := by
        refine (if_neg hempty).trans ?_
        rw [Server.segmentTip_of_linked hlinked hnil hcap]; rfl
      have hcount : sent + batch.length = (got ++ (underway ++ [batch])).flatten.length := by
        rw [hsent]; simp [Nat.add_assoc]
      refine ⟨_, hbatch, hstep, tip, underway ++ [batch], false, wire ++ [.envelopes batch],
        flow.stream hlinked hnil hcap hterms htip _, ?_, ?_⟩
      · rw [hcount]; exact .sends
      · rw [stream, coming, coming]
        simp

/-- A server's question is answered, and it takes the answer. -/
theorem Talk.serverAsks (hK : K.Serves there)
    (h : Talk K head pulled served state pending toServer state' (.ask q :: pending') toPuller) :
    ∃ a stepped, there.syncAnswer q = .ok a ∧ Server.step head state' (.answer a) = .ok stepped ∧
      Talk K head pulled (served ++ stepped.2) state pending toServer stepped.1 (pending' ++ stepped.2) toPuller := by
  cases h with
  | @splits locator early offered =>
    obtain ⟨at', hsplit, hnone, hsome⟩ := hK.split locator offered
    cases at' with
    | none =>
      refine ⟨_, _, hsplit, rfl, .refuses (hnone rfl) early.ingests early.pulling ?_ ?_⟩
      · rw [streamed_append, early.streamed]; rfl
      · rw [endings_append, early.serving]; rfl
    | some d =>
      obtain ⟨hmem, hserving, hreached⟩ := hsome d rfl
      have hflow : Flow K pulled (served ++ [.send (.split d), .ask (.segment d)]) d d d [] [] false := by
        refine ⟨.nil, .nil, nofun, ?_, nofun, hserving, nofun, ?_, early.ingests, early.pulling, ?_⟩
        · exact List.mem_append_right _ List.mem_cons_self
        · rw [streamed_append, early.streamed]; rfl
        · rw [endings_append, early.serving]; rfl
      exact ⟨_, _, hsplit, rfl, .split hflow hmem hreached .sends rfl⟩
  | split flow offered reached streams stream =>
    obtain ⟨a, stepped, hanswer, hstep, _, _, _, _, hflow, hstreams, hahead⟩ :=
      flow.serverAsks hK [.split _] rfl streams stream
    exact ⟨a, stepped, hanswer, hstep, .split hflow offered reached hstreams hahead⟩
  | streaming flow count reached streams stream =>
    obtain ⟨a, stepped, hanswer, hstep, _, _, _, _, hflow, hstreams, hahead⟩ := flow.serverAsks hK [] rfl streams stream
    exact ⟨a, stepped, hanswer, hstep, .streaming hflow count reached hstreams hahead⟩
  | ingesting flow last linked reached counts streams stream =>
    obtain ⟨a, stepped, hanswer, hstep, _, _, _, _, hflow, hstreams, hahead⟩ := flow.serverAsks hK [] rfl streams stream
    exact ⟨a, stepped, hanswer, hstep, .ingesting hflow last linked reached counts hstreams hahead⟩

omit [Encoding] in
/-- The server takes whatever frame reaches it. -/
theorem Talk.serverReceives (h : Talk K head pulled served state pending (m :: toServer) state' [] toPuller) :
    ∃ stepped, Server.step head state' (.message m.received) = .ok stepped ∧
      Talk K head pulled (served ++ stepped.2) state pending toServer stepped.1 ([] ++ stepped.2) toPuller := by
  cases h with
  | greeting early =>
    refine ⟨_, rfl, .returns ⟨early.ingests, early.pulling, ?_, ?_⟩⟩
    · rw [streamed_append, early.streamed]; rfl
    · rw [endings_append, early.serving]; rfl
  | @offering locator early lawful offered =>
    have hempty : ¬ locator.isEmpty = true := by
      intro hempty
      rw [List.isEmpty_iff.1 hempty] at lawful
      exact absurd lawful.1 (by decide)
    refine ⟨_, (if_neg hempty).trans (if_neg (Nat.not_lt.2 lawful.2)), .splits ⟨early.ingests, early.pulling, ?_, ?_⟩ offered⟩
    · rw [streamed_append, early.streamed]; rfl
    · rw [endings_append, early.serving]; rfl

omit [Encoding] in
/-- The puller takes whatever frame reaches it. -/
theorem Talk.pullerReceives (h : Talk K head pulled served state [] toServer state' pending' (m :: toPuller)) :
    ∃ stepped, Puller.step state (.message m.received) = .ok stepped ∧
      Talk K head (pulled ++ stepped.2) served stepped.1 ([] ++ stepped.2) toServer state' pending' toPuller := by
  cases h with
  | returning early =>
    refine ⟨_, rfl, .checks ⟨?_, ?_, early.streamed, early.serving⟩⟩
    · rw [ingests_append, early.ingests]; rfl
    · rw [endings_append, early.pulling]; rfl
  | refusing unsplit nothing pulling still ending =>
    refine ⟨_, rfl, .parted unsplit ?_ ?_ still ending⟩
    · rw [ingests_append, nothing]; rfl
    · rw [endings_append, pulling]; rfl
  | @split locator at' cursor underway finished _ _ _ _ flow offered reached streams stream =>
    obtain ⟨rest, rfl, hstreams⟩ := streams.pop
    obtain ⟨rfl, rfl⟩ := List.cons.inj stream
    refine ⟨_, if_pos (List.contains_iff_mem.2 offered), ?_⟩
    rw [List.append_nil]
    exact .streaming flow rfl reached hstreams rfl
  | @streaming at' mid cursor got underway finished ingested _ _ _ _ flow count reached streams stream =>
    obtain ⟨rest, rfl, hstreams⟩ := streams.pop
    cases underway with
    | nil =>
      -- nothing but the end of the stream is under way
      cases finished with
      | false => cases stream
      | true =>
        obtain ⟨rfl, rfl⟩ := List.cons.inj stream
        obtain rfl : mid = cursor := by cases flow.ahead; rfl
        rw [List.append_nil] at hstreams
        obtain ⟨rfl, rfl, rfl⟩ := hstreams.through rfl
        subst count
        have hstreamed := flow.streamed
        have hsent := flow.sent
        have hending := flow.ending
        rw [List.append_nil] at hstreamed hsent hending
        refine ⟨_, rfl, .synced flow.arrived flow.split reached (flow.ended rfl) hsent rfl hstreamed ?_ ?_ hending⟩
        · rw [ingests_append, flow.ingests]
          exact List.append_nil _
        · rw [endings_append, flow.pulling]; rfl
    | cons batch underway =>
      obtain ⟨rfl, rfl⟩ := List.cons.inj stream
      obtain ⟨next, hlinked, hne, hcap, hflow⟩ := flow.take
      have hempty : ¬ (batch.map received).isEmpty = true := by
        rw [List.isEmpty_iff, List.map_eq_nil_iff]; exact hne
      have hlen : ¬ (batch.map received).length > MAX_BATCH_ENVELOPES := by
        rw [List.length_map]; exact Nat.not_lt.2 hcap
      have hstep : Puller.step (.awaitBatch mid ingested) (.message (Message.envelopes batch).received) =
          .ok (.awaitIngest next ingested batch.length, [.ingest (batch.map received)]) := by
        refine (if_neg hempty).trans ((if_neg hlen).trans ?_)
        rw [Puller.tip_of_linked hlinked.received, List.length_map]; rfl
      have hsplit : got ++ batch :: underway = (got ++ [batch]) ++ underway := by simp
      rw [hsplit] at hstreams
      refine ⟨_, hstep, .ingesting hflow (List.mem_append_right _ (List.mem_singleton.2 rfl)) hlinked reached ?_ hstreams rfl⟩
      rw [count, List.flatten_append, List.flatten_singleton, List.length_append]

omit [Encoding] in
/-- What the puller is about to ingest: a linked run from where it had come to, of envelopes the
server streamed. -/
theorem Talk.ingest {batch : List Envelope}
    (h : Talk K head pulled served state (.ingest batch :: pending) toServer state' pending' toPuller) :
    ∃ start tip, Linked start batch tip ∧ K.reached start ∧ ∀ e ∈ batch, ∃ e', K.sent e' ∧ e = received e' := by
  cases h with
  | @ingesting at' start mid cursor got underway batch finished _ _ _ _ _ _ flow last linked reached _ _ _ =>
    refine ⟨start, mid, linked.received, reached, fun e he => ?_⟩
    obtain ⟨e', he', rfl⟩ := List.mem_map.1 he
    exact ⟨e', flow.sent e' (List.mem_flatten.2 ⟨batch, List.mem_append_left _ last, he'⟩), rfl⟩

omit [Encoding] in
/-- An ingest that went through brings the puller on to where its batch ends. -/
theorem Talk.pullerIngests {batch : List Envelope} (hle : K.Le K')
    (h : Talk K head pulled served state (.ingest batch :: pending) toServer state' pending' toPuller)
    (hreach : ∀ start tip, Linked start batch tip → K.reached start → K'.reached tip) :
    ∃ stepped, Puller.step state .ingested = .ok stepped ∧
      Talk K' head (pulled ++ stepped.2) served stepped.1 (pending ++ stepped.2) toServer state' pending' toPuller := by
  cases h with
  | @ingesting at' start mid cursor got underway batch finished ingested count _ _ _ _ flow last linked reached counts
      streams stream =>
    refine ⟨_, rfl, ?_⟩
    rw [List.append_nil]
    exact .streaming (flow.mono hle) counts (hreach start mid linked.received reached) streams stream

end Steps

/-! ## What the record of a session shows -/

section Record

variable {K : Terms} {head : EnvelopeDigest} {pulled : List (Effect PullOutcome)} {served : List (Effect ServeOutcome)}
  {state : Puller.State} {pending : List (Effect PullOutcome)} {toServer toPuller : List Message}
  {state' : Server.State} {pending' : List (Effect ServeOutcome)}

/-- How the two sides of a session can have ended. -/
inductive Ended (K : Terms) (head : EnvelopeDigest) : List (Effect PullOutcome) → List (Effect ServeOutcome) → Prop
  | neither : Ended K head [] []
  | current (had : K.current head) : Ended K head [.done .alreadyCurrent] []
  | refused {locator : List EnvelopeDigest} (unsplit : K.unsplit locator) : Ended K head [] [.done .noCommonHistory]
  | parted {locator : List EnvelopeDigest} (unsplit : K.unsplit locator) :
    Ended K head [.done .noCommonHistory] [.done .noCommonHistory]
  | served {cursor : EnvelopeDigest} {sent : Nat} : Ended K head [] [.done (.served cursor sent)]
  | synced {cursor : EnvelopeDigest} {sent : Nat} (reached : K.reached cursor) (ended : K.served cursor) :
    Ended K head [.done (.synced cursor sent)] [.done (.served cursor sent)]

omit [Encoding] in
theorem Flow.ends {at' mid cursor : EnvelopeDigest} {got underway : List (List Envelope)} {finished : Bool}
    (flow : Flow K pulled served at' mid cursor got underway finished) : Ended K head (endings pulled) (endings served) := by
  rw [flow.pulling, flow.ending]
  cases finished with
  | false => exact .neither
  | true => exact .served

omit [Encoding] in
theorem Talk.ended (h : Talk K head pulled served state pending toServer state' pending' toPuller) :
    Ended K head (endings pulled) (endings served) := by
  have hearly : Early pulled served → Ended K head (endings pulled) (endings served) := by
    intro early
    rw [early.pulling, early.serving]
    exact .neither
  cases h with
  | greets early => exact hearly early
  | greeting early => exact hearly early
  | returns early => exact hearly early
  | returning early => exact hearly early
  | checks early => exact hearly early
  | locates early => exact hearly early
  | offers early _ _ => exact hearly early
  | offering early _ _ => exact hearly early
  | splits early _ => exact hearly early
  | current had _ ending _ serving => rw [ending, serving]; exact .current had
  | refuses unsplit _ pulling _ ending => rw [pulling, ending]; exact .refused unsplit
  | refusing unsplit _ pulling _ ending => rw [pulling, ending]; exact .refused unsplit
  | parted unsplit _ pulling _ ending => rw [pulling, ending]; exact .parted unsplit
  | split flow _ _ _ _ => exact flow.ends
  | streaming flow _ _ _ _ => exact flow.ends
  | ingesting flow _ _ _ _ _ _ => exact flow.ends
  | synced _ _ reached ended _ _ _ _ pulling ending => rw [pulling, ending]; exact .synced reached ended

/-- What was streamed and what of it was ingested: one linked run from a split the server sent. -/
structure Relayed (K : Terms) (pulled : List (Effect PullOutcome)) (served : List (Effect ServeOutcome)) : Prop where
  ingests : ingests pulled <+: (streamed served).map (List.map received)
  sent : ∀ e ∈ (streamed served).flatten, K.sent e
  run : streamed served ≠ [] → ∃ at' tip, Effect.send (.split at') ∈ served ∧ Linked at' (streamed served).flatten tip

omit [Encoding] in
theorem Relayed.nothing (hingests : Sync.ingests pulled = []) (hstreamed : Lotusd.streamed served = []) :
    Relayed K pulled served := by
  refine ⟨?_, ?_, fun hne => absurd hstreamed hne⟩
  · rw [hingests]; exact List.nil_prefix
  · rw [hstreamed]; exact nofun

omit [Encoding] in
theorem Flow.relayed {at' mid cursor : EnvelopeDigest} {got underway : List (List Envelope)} {finished : Bool}
    (flow : Flow K pulled served at' mid cursor got underway finished) : Relayed K pulled served := by
  refine ⟨?_, ?_, fun _ => ⟨at', cursor, flow.split, ?_⟩⟩
  · rw [flow.ingests, flow.streamed, List.map_append]
    exact List.prefix_append _ _
  · rw [flow.streamed]; exact flow.sent
  · rw [flow.streamed, List.flatten_append]
    exact flow.arrived.append flow.ahead

omit [Encoding] in
theorem Talk.relayed (h : Talk K head pulled served state pending toServer state' pending' toPuller) :
    Relayed K pulled served := by
  cases h with
  | greets early => exact .nothing early.ingests early.streamed
  | greeting early => exact .nothing early.ingests early.streamed
  | returns early => exact .nothing early.ingests early.streamed
  | returning early => exact .nothing early.ingests early.streamed
  | checks early => exact .nothing early.ingests early.streamed
  | locates early => exact .nothing early.ingests early.streamed
  | offers early _ _ => exact .nothing early.ingests early.streamed
  | offering early _ _ => exact .nothing early.ingests early.streamed
  | splits early _ => exact .nothing early.ingests early.streamed
  | current _ nothing _ still _ => exact .nothing nothing still
  | refuses _ nothing _ still _ => exact .nothing nothing still
  | refusing _ nothing _ still _ => exact .nothing nothing still
  | parted _ nothing _ still _ => exact .nothing nothing still
  | split flow _ _ _ _ => exact flow.relayed
  | streaming flow _ _ _ _ => exact flow.relayed
  | ingesting flow _ _ _ _ _ _ => exact flow.relayed
  | @synced at' cursor got ingested arrived split _ _ sent _ streamed ingests _ _ =>
    subst streamed
    exact ⟨by rw [ingests], sent, fun _ => ⟨at', cursor, split, arrived⟩⟩

omit [Externals] [Encoding] in
theorem mem_endings_done {O : Type} {effects : List (Effect O)} {outcome : O} :
    Effect.done outcome ∈ endings effects ↔ Effect.done outcome ∈ effects := by
  simp [endings]

omit [Externals] [Encoding] in
theorem mem_endings_violation {O : Type} {effects : List (Effect O)} {breach : Breach} :
    Effect.violation breach ∈ endings effects ↔ Effect.violation breach ∈ effects := by
  simp [endings]

end Record

/-! ## Each step of a session -/

section Session

variable {K K' : Terms} {head : EnvelopeDigest} {p q : Pull}

/-- The session stands somewhere in the conversation. -/
def Pull.Talks (K : Terms) (head : EnvelopeDigest) (p : Pull) : Prop :=
  Talk K head p.puller.effects p.server.effects p.puller.machine p.puller.pending p.toServer p.server.machine
    p.server.pending p.toPuller

omit [Encoding] in
theorem Pull.opening_talks (here there : Core) (pullerHead : EnvelopeDigest) :
    (Pull.opening here there pullerHead).Talks K head := .greets ⟨rfl, rfl, rfl, rfl⟩

theorem Pull.Step.there_eq (step : Pull.Step head p q) : q.there = p.there := by
  cases step <;> rfl

/-- Only an ingest touches the pulling core. -/
theorem Pull.Step.here_cases (step : Pull.Step head p q) : q.here = p.here ∨ ∃ batch pending insert,
    p.puller.pending = .ingest batch :: pending ∧ p.here.insertBatch batch = (.ok insert, q.here) := by
  cases step with
  | pullerIngests front inserted took => exact .inr ⟨_, _, _, front, inserted⟩
  | pullerSends _ => exact .inl rfl
  | pullerAsks _ _ _ => exact .inl rfl
  | pullerReceives _ _ _ => exact .inl rfl
  | serverSends _ => exact .inl rfl
  | serverAsks _ _ _ => exact .inl rfl
  | serverReceives _ _ _ => exact .inl rfl

/-- A session goes on standing in the conversation, within the terms of the cores as they then are. -/
theorem Pull.Step.talks (step : Pull.Step head p q) (h : p.Talks K head) (hpulls : K.Pulls p.here) (hserves : K.Serves p.there)
    (hle : K.Le K') (hreach : ∀ batch pending insert start tip, p.puller.pending = .ingest batch :: pending →
      p.here.insertBatch batch = (.ok insert, q.here) → Linked start batch tip → K.reached start → K'.reached tip) :
    q.Talks K' head := by
  unfold Pull.Talks at h
  cases step with
  | pullerSends front =>
    rw [front] at h
    exact h.pullerSends.mono hle
  | pullerAsks front answered took =>
    rw [front] at h
    obtain ⟨a, ha, hres⟩ := h.pullerAsks hpulls
    rw [answered] at ha; cases ha
    rcases hres with ⟨_, _, _, halt, herr⟩ | ⟨stepped, hstep, htalk⟩
    · rw [took] at herr; cases herr
    · rw [took] at hstep; cases hstep
      exact htalk.mono hle
  | pullerIngests front inserted took =>
    rw [front] at h
    obtain ⟨stepped, hstep, htalk⟩ := h.pullerIngests hle fun start tip => hreach _ _ _ start tip front inserted
    rw [took] at hstep; cases hstep
    exact htalk
  | pullerReceives idle front took =>
    rw [idle, front] at h
    obtain ⟨stepped, hstep, htalk⟩ := h.pullerReceives
    rw [took] at hstep; cases hstep
    exact htalk.mono hle
  | serverSends front =>
    rw [front] at h
    exact h.serverSends.mono hle
  | serverAsks front answered took =>
    rw [front] at h
    obtain ⟨a, stepped, ha, hstep, htalk⟩ := h.serverAsks hserves
    rw [answered] at ha; cases ha
    rw [took] at hstep; cases hstep
    exact htalk.mono hle
  | serverReceives idle front took =>
    rw [idle, front] at h
    obtain ⟨stepped, hstep, htalk⟩ := h.serverReceives
    rw [took] at hstep; cases hstep
    exact htalk.mono hle

end Session

/-! ## Driving a session -/

/-- The next step of a session in which the puller goes first, if there is one. -/
def Pull.advance (head : EnvelopeDigest) (p : Pull) : Option Pull :=
  match p.puller.pending, p.toPuller, p.server.pending, p.toServer with
  | .send message :: pending, _, _, _ =>
    some { p with puller := { p.puller with pending }, toServer := p.toServer ++ [message] }
  | .ask query :: pending, _, _, _ => do
    let answer ← (p.here.syncAnswer query).toOption
    let stepped ← (Puller.step p.puller.machine (.answer answer)).toOption
    some { p with puller := p.puller.next (.answer answer) pending stepped }
  | .ingest batch :: pending, _, _, _ => do
    let _ ← (p.here.insertBatch batch).1.toOption
    let stepped ← (Puller.step p.puller.machine .ingested).toOption
    some { p with here := (p.here.insertBatch batch).2, puller := p.puller.next .ingested pending stepped }
  | .done _ :: _, _, _, _ | .violation _ :: _, _, _, _ => none
  | [], message :: frames, _, _ => do
    let stepped ← (Puller.step p.puller.machine (.message message.received)).toOption
    some { p with puller := p.puller.next (.message message.received) [] stepped, toPuller := frames }
  | [], [], .send message :: pending, _ =>
    some { p with server := { p.server with pending }, toPuller := p.toPuller ++ [message] }
  | [], [], .ask query :: pending, _ => do
    let answer ← (p.there.syncAnswer query).toOption
    let stepped ← (Server.step head p.server.machine (.answer answer)).toOption
    some { p with server := p.server.next (.answer answer) pending stepped }
  | [], [], [], message :: frames => do
    let stepped ← (Server.step head p.server.machine (.message message.received)).toOption
    some { p with server := p.server.next (.message message.received) [] stepped, toServer := frames }
  | [], [], _, _ => none

/-- Up to so many steps of it. -/
def Pull.drive (head : EnvelopeDigest) : Nat → Pull → Pull
  | 0, p => p
  | steps + 1, p => (p.advance head).elim p (Pull.drive head steps)

section Drive

variable {head : EnvelopeDigest} {p q : Pull}

theorem Pull.advance_step (h : p.advance head = some q) : Pull.Step head p q := by
  have hok : ∀ {E α : Type} {r : Except E α} {a : α}, r.toOption = some a → r = .ok a := by
    intro E α r a hr
    cases r with
    | error e => cases hr
    | ok b => cases hr; rfl
  unfold Pull.advance at h
  split at h
  · rename_i front
    cases h
    exact .pullerSends front
  · rename_i front
    obtain ⟨answer, ha, h⟩ := Option.bind_eq_some_iff.1 h
    obtain ⟨stepped, hs, h⟩ := Option.bind_eq_some_iff.1 h
    cases h
    exact .pullerAsks front (hok ha) (hok hs)
  · rename_i front
    obtain ⟨insert, hi, h⟩ := Option.bind_eq_some_iff.1 h
    obtain ⟨stepped, hs, h⟩ := Option.bind_eq_some_iff.1 h
    cases h
    exact .pullerIngests front (Prod.ext (hok hi) rfl) (hok hs)
  · cases h
  · cases h
  · rename_i idle front
    obtain ⟨stepped, hs, h⟩ := Option.bind_eq_some_iff.1 h
    cases h
    exact .pullerReceives idle front (hok hs)
  · rename_i front
    cases h
    exact .serverSends front
  · rename_i front
    obtain ⟨answer, ha, h⟩ := Option.bind_eq_some_iff.1 h
    obtain ⟨stepped, hs, h⟩ := Option.bind_eq_some_iff.1 h
    cases h
    exact .serverAsks front (hok ha) (hok hs)
  · rename_i idle front
    obtain ⟨stepped, hs, h⟩ := Option.bind_eq_some_iff.1 h
    cases h
    exact .serverReceives idle front (hok hs)
  · cases h

theorem Pull.drive_steps : ∀ (steps : Nat) (p : Pull), Relation.ReflTransGen (Pull.Step head) p (p.drive head steps)
  | 0, p => .refl
  | steps + 1, p => by
    unfold Pull.drive
    cases h : p.advance head with
    | none => exact .refl
    | some q => exact .head (Pull.advance_step h) (Pull.drive_steps steps q)

end Drive

end IrohLotus.Lotusd
