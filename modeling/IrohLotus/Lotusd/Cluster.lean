/-
Nodes of one `Init` that keep connections to one another: each announces its head as it moves over the
connections it dialled (`peer_egress`), and pulls back over those it accepted when a head it does not stand
at is announced (`peer_ingress`, `peer_link`). Inserts, reopenings, restarts and lost connections may come
at any time. What one node has still to tell another is under way somewhere, so once nothing is left to do
all nodes that hear of each other stand at one head.
-/
import IrohLotus.Lotusd.Greatest
import IrohLotus.Lotusd.PeerLink
import IrohLotus.Lotusd.Watch

namespace IrohLotus.Lotusd

open Std Outcome Forest IrohLotus.Wire IrohLotus.Storage IrohLotus.State IrohLotus.Sync

/-! ## The model -/

/-- A node beside its peers: its core, its egress actor's subscription to the head, and the head the actor
last passed on to the tasks that keep its connections. -/
structure Node where
  core : Core
  heads : Subscriber
  watch : EnvelopeDigest

/-- A node just started: the subscription opens where its core stands. -/
def Node.started (core : Core) : Node := ⟨core, .registered (.of .head), core.head⟩

/-- The node goes on to `core`; what the move of its head changed is published. -/
def Node.moved [Externals] (node : Node) (core : Core) : Node :=
  let differ := ChangeDiffer.openedAt node.core.head
  if core.head ≠ differ.source then
    match differ.diff core.storage core.head with
    | .ok movement => { node with core, heads := node.heads.publish ⟨differ.source, core.head, movement⟩ }
    | .error _ => { node with core }
  else { node with core }

/-- A pull under way: the head its server was made with, the two machines, and the frames between them. -/
structure Exchange where
  head : EnvelopeDigest
  puller : Session Puller.State PullOutcome
  server : Session Server.State ServeOutcome
  toServer : List Message
  toPuller : List Message

/-- The session of an exchange, with the cores of its two nodes. -/
def Exchange.pull (x : Exchange) (here there : Core) : Pull := ⟨here, there, x.puller, x.server, x.toServer, x.toPuller⟩

/-- What a step of the session leaves of the exchange. -/
def Exchange.went (x : Exchange) (p : Pull) : Exchange := ⟨x.head, p.puller, p.server, p.toServer, p.toPuller⟩

/-- An exchange that starts. -/
def Exchange.opening (pullerHead head : EnvelopeDigest) : Exchange := ⟨head, Puller.opening pullerHead, Server.opening, [], []⟩

/-- A connection: whether the watched head changed since its dialler last announced it, the announces on
their way, and of the side that accepted it the link, with the pull it runs. -/
structure Connection where
  changed : Bool
  announces : List EnvelopeDigest
  link : PeerLink.Link
  exchange : Option Exchange

/-- A connection just made: the dialler announces the head it watches. -/
def Connection.new (watch : EnvelopeDigest) : Connection := ⟨false, [watch], .new, none⟩

/-- The nodes, and the connection each of them dialled to each other. -/
structure Cluster (ι : Type) where
  nodes : ι → Node
  conns : ι → ι → Option Connection

namespace Cluster

variable {ι : Type} [DecidableEq ι]

def started (cores : ι → Core) : Cluster ι := ⟨fun i => .started (cores i), fun _ _ => none⟩

def put (c : Cluster ι) (i : ι) (node : Node) : Cluster ι := { c with nodes := Function.update c.nodes i node }

def link (c : Cluster ι) (e i : ι) (k : Option Connection) : Cluster ι :=
  { c with conns := fun e' i' => if e' = e ∧ i' = i then k else c.conns e' i' }

/-- Every connection `e` dialled has a head to announce. -/
def wake (c : Cluster ι) (e : ι) : Cluster ι :=
  { c with conns := fun e' i => if e' = e then (c.conns e i).map ({ · with changed := true }) else c.conns e' i }

/-- A node goes down and up again: its connections are gone. -/
def restart (c : Cluster ι) (i : ι) : Cluster ι :=
  { c.put i (.started (c.nodes i).core) with
    conns := fun e' i' => if e' = i ∨ i' = i then none else c.conns e' i' }

variable [Externals] [Encoding]

/-- What the nodes do of themselves, where `e` dialled and `i` accepted: the actor takes what its
subscription holds and passes it on, a task announces the head, an announce arrives, a pull is opened, a
session goes a step on, or is over. -/
inductive Work (c : Cluster ι) : Cluster ι → Prop
  | delivers {e : ι} {moved : ChangeNotification} {heads : Subscriber} (taken : (c.nodes e).heads.take = (some moved, heads)) :
    Work c ((c.put e { c.nodes e with heads, watch := moved.head }).wake e)
  | announces {e i : ι} {k : Connection} (up : c.conns e i = some k) (changed : k.changed = true) :
    Work c (c.link e i (some { k with changed := false, announces := k.announces ++ [(c.nodes e).watch] }))
  | hears {e i : ι} {k : Connection} {head : EnvelopeDigest} (up : c.conns e i = some k) (underway : head ∈ k.announces) :
    Work c (c.link e i (some { k with
      announces := k.announces.erase head, link := k.link.hear head (c.nodes i).core.head }))
  | opens {e i : ι} {k : Connection} (up : c.conns e i = some k) (task : PeerLink.Task.pull ∈ k.link.tasks)
    (unopened : k.exchange = none) (pullerHead : EnvelopeDigest) :
    Work c (c.link e i (some { k with exchange := some (.opening pullerHead (c.nodes e).core.head) }))
  | talks {e i : ι} {k : Connection} {x : Exchange} {q : Pull} (up : c.conns e i = some k) (underway : k.exchange = some x)
    (step : Pull.Step x.head (x.pull (c.nodes i).core (c.nodes e).core) q) :
    Work c ((c.put i ((c.nodes i).moved q.here)).link e i (some { k with exchange := some (x.went q) }))
  | settles {e i : ι} {k : Connection} {x : Exchange} {outcome : PullOutcome} (up : c.conns e i = some k)
    (underway : k.exchange = some x) (landed : x.puller.pending = [.done outcome]) :
    Work c (c.link e i (some { k with
      link := (PeerLink.Link.settle { k.link with tasks := k.link.tasks.erase .pull } (.pulled (.ok outcome))).2
      exchange := none }))

/-- What may come from outside as well: envelopes, a tick or a reopening at a node, a dial that succeeds, a
lost connection, a restart. -/
inductive Step (contents : Set SignedPortion) (c : Cluster ι) : Cluster ι → Prop
  | work {c' : Cluster ι} (work : c.Work c') : Step contents c c'
  | moves {i : ι} {core : Core} (move : (c.nodes i).core.Moves contents core) :
    Step contents c (c.put i ((c.nodes i).moved core))
  | connects {e i : ι} (other : e ≠ i) : Step contents c (c.link e i (some (.new (c.nodes e).watch)))
  | drops (e i : ι) : Step contents c (c.link e i none)
  | restarts (i : ι) : Step contents c (c.restart i)

/-- The states of a cluster from `start` on. -/
inductive Runs (contents : Set SignedPortion) (start : Cluster ι) : Cluster ι → Prop
  | start : Runs contents start start
  | step {c c' : Cluster ι} (before : Runs contents start c) (step : Step contents c c') : Runs contents start c'

/-- There is nothing left to do. -/
def Quiet (c : Cluster ι) : Prop := ∀ c', ¬ c.Work c'

omit [DecidableEq ι] [Externals] [Encoding] in
/-- `i` hears of the head of `e`. -/
def Hears (c : Cluster ι) (e i : ι) : Prop := (c.conns e i).isSome

end Cluster

/-! ## Sessions between standing nodes -/

section Sessions

variable [Externals] [Encoding] {still : Prop} {W : World} {head : EnvelopeDigest} {p q : Pull} {here there there' : Core}

omit [Encoding] in
theorem Terms.ofInit_le_there_head (hgrows : there.storage.LogGrows there'.storage) (hhead : there'.head = there.head) :
    (Terms.ofInit still W here there).Le (Terms.ofInit still W here there') where
  offered _ h := h
  reached _ h := h
  sent e h := by
    obtain ⟨d, hd, hdesc⟩ := h
    exact ⟨d, hgrows d e hd, fun hs => hhead ▸ (hdesc hs).mono hgrows.extends⟩
  serving _ h hs := hhead ▸ (h hs).mono hgrows.extends
  served _ h hs := (h hs).trans hhead.symm
  unsplit _ h := h
  current _ h := h

omit [Encoding] in
/-- A serving node that stays at its head may do what it likes. -/
theorem Pull.Honest.there_moves_head (h : p.Honest still W head) {core : Core} (move : p.there.Moves W.contents core)
    (hhead : core.head = p.there.head) : Pull.Honest still W head { p with there := core } := by
  obtain ⟨hfull, hgrows⟩ := h.there.moves move
  exact ⟨h.here, hfull, h.talks.mono (Terms.ofInit_le_there_head hgrows hhead)⟩

omit [Encoding] in
/-- A puller that is done with a node that stands still at the head it greeted with has that head. -/
theorem Pull.Honest.head_stored (h : p.Honest True W p.there.head) {outcome : PullOutcome}
    (hdone : Effect.done outcome ∈ p.puller.effects) : p.here.storage.Stored p.there.head := by
  have htalks := h.talks
  unfold Pull.Talks at htalks
  have hended := htalks.ended
  rw [← mem_endings_done] at hdone
  generalize endings p.puller.effects = pulled at hended hdone
  generalize endings p.server.effects = served at hended
  cases hended with
  | neither => simp at hdone
  | refused => simp at hdone
  | served => simp at hdone
  | current had => exact had
  | parted unsplit => exact unsplit.elim
  | synced reached ended => exact ended trivial ▸ reached

/-- A session is never stuck: a step is left to take until the puller is done, as long as its path is
within what a locator covers. -/
theorem Pull.Honest.progress (h : p.Honest still W head) (short : ∀ path, p.here.walkCanonical = .ok path → path.length ≤ 2 ^ 62) :
    (∃ q, Pull.Step head p q) ∨ ∃ outcome, p.puller.pending = [.done outcome] := by
  have hsurvives := h.survives_of_honest
  obtain ⟨hasks, hserves⟩ := hsurvives.asked
  obtain ⟨htakes, hreads⟩ := hsurvives.taken
  have hingest : ∀ batch pending, p.puller.pending = .ingest batch :: pending → ∃ i, (p.here.insertBatch batch).1 = .ok i :=
    hsurvives.ingests
  have htalks := h.talks
  obtain ⟨here, there, ⟨machine, pending, fed, effects⟩, ⟨machine', pending', fed', effects'⟩, toServer, toPuller⟩ := p
  -- a query of the puller is answered, and the answer taken
  have hasked : ∀ q rest, pending = .ask q :: rest → ∃ next, Pull.Step head
      ⟨here, there, ⟨machine, pending, fed, effects⟩, ⟨machine', pending', fed', effects'⟩, toServer, toPuller⟩ next := by
    intro q rest hpending
    obtain ⟨a, hanswer, ⟨stepped, hstep⟩ | ⟨path, hpath, hlong⟩⟩ := hasks q rest hpending
    · exact ⟨_, .pullerAsks hpending hanswer hstep⟩
    · exact absurd (short path hpath) (Nat.not_le.2 hlong)
  have hserved : ∀ q rest, pending' = .ask q :: rest → ∃ next, Pull.Step head
      ⟨here, there, ⟨machine, pending, fed, effects⟩, ⟨machine', pending', fed', effects'⟩, toServer, toPuller⟩ next := by
    intro q rest hpending
    obtain ⟨a, stepped, hanswer, hstep⟩ := hserves q rest hpending
    exact ⟨_, .serverAsks hpending hanswer hstep⟩
  have hheard : ∀ m frames, pending = [] → toPuller = m :: frames → ∃ next, Pull.Step head
      ⟨here, there, ⟨machine, pending, fed, effects⟩, ⟨machine', pending', fed', effects'⟩, toServer, toPuller⟩ next := by
    intro m frames hidle hfront
    obtain ⟨stepped, hstep⟩ := htakes m frames hidle hfront
    exact ⟨_, .pullerReceives hidle hfront hstep⟩
  have hread : ∀ m frames, pending' = [] → toServer = m :: frames → ∃ next, Pull.Step head
      ⟨here, there, ⟨machine, pending, fed, effects⟩, ⟨machine', pending', fed', effects'⟩, toServer, toPuller⟩ next := by
    intro m frames hidle hfront
    obtain ⟨stepped, hstep⟩ := hreads m frames hidle hfront
    exact ⟨_, .serverReceives hidle hfront hstep⟩
  -- a stream has a frame on the wire, or its server is about to do something
  have hstreams : ∀ {cursor : EnvelopeDigest} {sent : Nat} {finished : Bool} {ahead : List Message},
      Streams cursor sent finished machine' pending' toPuller ahead → (finished = true → ahead ≠ []) → pending = [] →
        ∃ next, Pull.Step head
          ⟨here, there, ⟨machine, pending, fed, effects⟩, ⟨machine', pending', fed', effects'⟩, toServer, toPuller⟩ next := by
    intro cursor sent finished ahead hstreams hahead hidle
    cases hstreams with
    | asks => exact hserved _ _ rfl
    | sends => exact ⟨_, .serverSends rfl⟩
    | closes => exact ⟨_, .serverSends rfl⟩
    | closed =>
      obtain ⟨m, frames, hfront⟩ := List.exists_cons_of_ne_nil (hahead rfl)
      exact hheard m frames hidle hfront
  unfold Pull.Talks at htalks
  cases htalks with
  | greets early => exact .inl ⟨_, .pullerSends rfl⟩
  | greeting early => exact .inl (hread _ _ rfl rfl)
  | returns early => exact .inl ⟨_, .serverSends rfl⟩
  | returning early => exact .inl (hheard _ _ rfl rfl)
  | checks early => exact .inl (hasked _ _ rfl)
  | current => exact .inr ⟨_, rfl⟩
  | locates early => exact .inl (hasked _ _ rfl)
  | offers early => exact .inl ⟨_, .pullerSends rfl⟩
  | offering early => exact .inl (hread _ _ rfl rfl)
  | splits early => exact .inl (hserved _ _ rfl)
  | refuses unsplit => exact unsplit.elim
  | refusing unsplit => exact unsplit.elim
  | parted unsplit => exact unsplit.elim
  | split flow offered reached streams stream =>
    exact .inl (hstreams streams (fun _ => by rw [stream]; exact List.cons_ne_nil _ _) rfl)
  | streaming flow count reached streams stream =>
    refine .inl (hstreams streams (fun hfinished => ?_) rfl)
    rw [stream, hfinished]
    exact List.append_ne_nil_of_right_ne_nil _ (List.cons_ne_nil _ _)
  | ingesting flow last linked reached counts streams stream =>
    obtain ⟨i, hi⟩ := hingest _ _ rfl
    exact .inl ⟨_, .pullerIngests rfl (Prod.ext hi rfl) rfl⟩
  | synced => exact .inr ⟨_, rfl⟩

omit [Encoding] in
/-- A puller with an outcome to return came to it. -/
theorem Pull.Honest.landed (h : p.Honest still W head) {outcome : PullOutcome} (landed : p.puller.pending = [.done outcome]) :
    Effect.done outcome ∈ p.puller.effects := by
  have htalks := h.talks
  obtain ⟨here, there, ⟨machine, pending, fed, effects⟩, ⟨machine', pending', fed', effects'⟩, toServer, toPuller⟩ := p
  unfold Pull.Talks at htalks
  dsimp only at landed htalks ⊢
  rw [← mem_endings_done]
  cases htalks with
  | current had nothing ending =>
    cases landed
    rw [ending]
    exact List.mem_singleton_self _
  | parted unsplit => exact unsplit.elim
  | synced arrived split reached ended sent count streamed ingests pulling =>
    cases landed
    rw [pulling]
    exact List.mem_singleton_self _
  | _ => cases landed

end Sessions

/-! ## A node moves -/

section Nodes

variable [Externals] {W : World} {core : Core} {node : Node}

theorem Core.Full.live (h : core.Full W) : Live W W.genesis core.chain core.storage := by
  refine ⟨h.coherent, h.good.head_stored, fun y _ hy => h.allHeld y (h.stored_of_desc hy), fun d p hd hne hp => ?_, .inl h.root⟩
  obtain ⟨v, hv⟩ := hd
  obtain ⟨p', hp', hdesc⟩ := (h.coherent.desc (h.coherent.versions d v hv).1).exists_parent hne
  obtain rfl : p' = p := Option.some.inj (hp'.symm.trans hp)
  exact h.allHeld _ (core.storage.stored_of_desc h.coherent.base_stored hdesc)

/-- What `Core::insert` leaves of the core is what the batch leaves. -/
theorem insert_insertBatch (core : Core) (es : List Envelope) :
    { core with
      chain := (insert core.chain core.storage es).chain
      storage := (insert core.chain core.storage es).store } = (core.insertBatch es).2 := by
  unfold insert Core.insertBatch
  dsimp only
  split
  · cases (ChangeDiffer.openedAt core.chain.head).diff (core.chain.insertBatch es core.storage).2.2
      (core.chain.insertBatch es core.storage).2.1.head <;> rfl
  · rfl

/-- A batch takes a node on as `Core::insert` does. -/
theorem Node.moved_insertBatch (node : Node) (es : List Envelope) : node.moved (node.core.insertBatch es).2 =
    { node with
      core := (node.core.insertBatch es).2
      heads := ((insert node.core.chain node.core.storage es).published.map node.heads.publish).getD node.heads } := by
  unfold Node.moved insert Core.insertBatch Core.head
  dsimp only
  split
  · cases (ChangeDiffer.openedAt node.core.chain.head).diff (node.core.chain.insertBatch es node.core.storage).2.2
      (node.core.chain.insertBatch es node.core.storage).2.1.head <;> rfl
  · rfl

/-- What is kept of a node: what its subscription holds ends at its head, and once that is taken the actor
watches the head. -/
structure Node.Kept (W : World) (node : Node) : Prop where
  full : node.core.Full W
  filter : node.heads.filter = .of .head
  pending : ∀ moved, node.heads.pending = some moved → moved.head = node.core.head
  watched : node.heads.pending = none → node.watch = node.core.head

theorem Node.kept_started (full : core.Full W) : (Node.started core).Kept W :=
  ⟨full, rfl, fun _ h => (by cases h), fun _ => rfl⟩

/-- A move that leaves the head in place changes the core only; one that does not leaves its news pending. -/
theorem Node.Kept.moved (h : node.Kept W) (move : node.core.Moves W.contents core) : (node.moved core).Kept W ∧
    (node.moved core).core = core ∧
      (core.head = node.core.head ∧ node.moved core = { node with core } ∨ (node.moved core).heads.pending.isSome) := by
  obtain ⟨hfull, -⟩ := h.full.moves move
  have hstays : core.head = node.core.head → (node.moved core).Kept W ∧ (node.moved core).core = core ∧
      (core.head = node.core.head ∧ node.moved core = { node with core } ∨ (node.moved core).heads.pending.isSome) := by
    intro hhead
    have hmoved : node.moved core = { node with core } := by
      unfold Node.moved
      exact if_neg (not_not.2 hhead)
    rw [hmoved]
    exact ⟨⟨hfull, h.filter, fun m hm => (h.pending m hm).trans hhead.symm, fun hnone => (h.watched hnone).trans hhead.symm⟩,
      rfl, .inl ⟨hhead, rfl⟩⟩
  cases move with
  | insertBatch content =>
    rename_i es
    have hchain : (insert node.core.chain node.core.storage es).chain = (node.core.insertBatch es).2.chain :=
      congrArg Core.chain (insert_insertBatch node.core es)
    obtain ⟨-, ⟨-, hhead⟩ | ⟨movement, hpub, -⟩⟩ := insert_publishes h.full.live content
    · rw [hchain] at hhead
      exact hstays hhead
    · have hmatches : node.heads.filter.matches movement = true := by
        rw [h.filter]
        rfl
      rw [hchain] at hpub
      rw [node.moved_insertBatch es, hpub]
      simp only [Option.map_some, Option.getD_some, Subscriber.publish, hmatches, if_true]
      refine ⟨⟨hfull, h.filter, fun m hm => ?_, fun hnone => ?_⟩, trivial, .inr rfl⟩
      · obtain rfl := Option.some.inj hm
        unfold Subscriber.accumulate
        split <;> rfl
      · cases hnone
  | «open» run =>
    rw [h.full.oldest, h.full.good.open] at run
    cases run
    exact hstays rfl
  | tick clock => exact hstays rfl

end Nodes

/-! ## A connection -/

section Connections

variable [Externals] [Encoding] {W : World} {core : Core} {there here : Node} {k : Connection}

/-- What is under way from the node that dialled to the one that accepted, as long as the second may not
have stored the head of the first. -/
inductive Connection.Told (W : World) (there here : Node) (k : Connection) : Prop
  | had (stored : here.core.storage.Stored there.core.head)
  | notified (pending : there.heads.pending.isSome)
  | watched (changed : k.changed = true)
  | announced (underway : there.core.head ∈ k.announces)
  | owed (again : k.link.pull = .runningAgain)
  | pulled (running : k.link.pull = .running)
    (fresh : ∀ x, k.exchange = some x → x.head = there.core.head ∧ (x.pull here.core there.core).Honest True W x.head)

/-- What is kept of a connection. -/
structure Connection.Kept (W : World) (there here : Node) (k : Connection) : Prop where
  single : k.link.Single
  honest : ∀ x, k.exchange = some x → (x.pull here.core there.core).Honest False W x.head ∧ k.link.pull ≠ .idle
  told : k.Told W there here

omit [Encoding] in
theorem Connection.Kept.here_moves (h : k.Kept W there here) (hhere : here.Kept W) (move : here.core.Moves W.contents core) :
    k.Kept W there (here.moved core) := by
  obtain ⟨-, hcore, -⟩ := hhere.moved move
  obtain ⟨-, hgrows⟩ := hhere.full.moves move
  refine ⟨h.single, fun x hx => ?_, ?_⟩
  · rw [hcore]
    exact ⟨(h.honest x hx).1.here_moves move, (h.honest x hx).2⟩
  · cases h.told with
    | had stored => exact .had (by rw [hcore]; exact hgrows.stored stored)
    | notified pending => exact .notified pending
    | watched changed => exact .watched changed
    | announced underway => exact .announced underway
    | owed again => exact .owed again
    | pulled running fresh =>
      refine .pulled running fun x hx => ⟨(fresh x hx).1, ?_⟩
      rw [hcore]
      exact (fresh x hx).2.here_moves move

omit [Encoding] in
/-- Of the node that pulls only its core counts. -/
theorem Connection.Kept.here_congr (h : k.Kept W there here) {here' : Node} (hcore : here'.core = here.core) :
    k.Kept W there here' := by
  refine ⟨h.single, fun x hx => by rw [hcore]; exact h.honest x hx, ?_⟩
  cases h.told with
  | had stored => exact .had (by rw [hcore]; exact stored)
  | notified pending => exact .notified pending
  | watched changed => exact .watched changed
  | announced underway => exact .announced underway
  | owed again => exact .owed again
  | pulled running fresh => exact .pulled running (by rw [hcore]; exact fresh)

omit [Encoding] in
/-- A head that moves is news to whoever hears of it. -/
theorem Connection.Kept.there_moves (h : k.Kept W there here) (hthere : there.Kept W) (move : there.core.Moves W.contents core) :
    k.Kept W (there.moved core) here := by
  obtain ⟨-, hcore, hnews⟩ := hthere.moved move
  refine ⟨h.single, fun x hx => ?_, ?_⟩
  · rw [hcore]
    exact ⟨(h.honest x hx).1.there_moves id move, (h.honest x hx).2⟩
  · rcases hnews with ⟨hhead, hmoved⟩ | hpending
    · rw [hmoved]
      cases h.told with
      | had stored => exact .had (by rw [hhead]; exact stored)
      | notified pending => exact .notified pending
      | watched changed => exact .watched changed
      | announced underway => exact .announced (by rw [hhead]; exact underway)
      | owed again => exact .owed again
      | pulled running fresh =>
        refine .pulled running fun x hx => ⟨(fresh x hx).1.trans hhead.symm, ?_⟩
        exact (fresh x hx).2.there_moves_head move hhead
    · exact .notified hpending

omit [Encoding] in
theorem Connection.kept_new (hthere : there.Kept W) : (Connection.new there.watch).Kept W there here := by
  refine ⟨rfl, fun x hx => (by cases hx), ?_⟩
  cases hpending : there.heads.pending with
  | some moved => exact .notified (by rw [hpending]; rfl)
  | none => exact .announced (List.mem_singleton.2 (hthere.watched hpending).symm)

omit [Encoding] in
/-- The head announced is the one there is to tell of, or a newer one is on its way to the actor. -/
theorem Connection.Kept.announces (h : k.Kept W there here) (hthere : there.Kept W) :
    Connection.Kept W there here { k with changed := false, announces := k.announces ++ [there.watch] } := by
  refine ⟨h.single, h.honest, ?_⟩
  cases h.told with
  | had stored => exact .had stored
  | notified pending => exact .notified pending
  | watched changed =>
    cases hpending : there.heads.pending with
    | some moved => exact .notified (by rw [hpending]; rfl)
    | none => exact .announced (List.mem_append_right _ (List.mem_singleton.2 (hthere.watched hpending).symm))
  | announced underway => exact .announced (List.mem_append_left _ underway)
  | owed again => exact .owed again
  | pulled running fresh => exact .pulled running fresh

omit [Externals] [Encoding] in
/-- Where an announce asks for a pull, one runs from then on, or one more is owed. -/
theorem PeerLink.Link.hear_cases {link : PeerLink.Link} (hsingle : link.Single) (head ours : EnvelopeDigest) :
    (link.hear head ours).Single ∧ (head = ours ∧ link.hear head ours = link ∨ head ≠ ours ∧
      (link.pull = .idle ∧ (link.hear head ours).pull = .running ∨
        link.pull ≠ .idle ∧ (link.hear head ours).pull = .runningAgain)) := by
  unfold PeerLink.Link.hear
  by_cases hhead : head = ours
  · rw [if_pos hhead]
    exact ⟨hsingle, .inl ⟨hhead, rfl⟩⟩
  · rw [if_neg hhead]
    refine ⟨(PeerLink.Link.openPull_request hsingle).1, .inr ⟨hhead, ?_⟩⟩
    unfold PeerLink.Link.openPull
    cases hpull : link.pull with
    | idle => exact .inl ⟨rfl, rfl⟩
    | running => exact .inr ⟨by decide, rfl⟩
    | runningAgain => exact .inr ⟨by decide, rfl⟩

omit [Encoding] in
theorem Connection.Kept.hears_news (h : k.Kept W there here) (hhere : here.Kept W) (head : EnvelopeDigest) :
    Connection.Kept W there here { k with
      announces := k.announces.erase head, link := k.link.hear head here.core.head } := by
  obtain ⟨hsingle, hcases⟩ := PeerLink.Link.hear_cases h.single head here.core.head
  have hidle : k.link.pull = .idle → k.exchange = none := by
    intro hpull
    cases hx : k.exchange with
    | none => rfl
    | some x => exact absurd hpull (h.honest x hx).2
  rcases hcases with ⟨hhead, hlink⟩ | ⟨-, ⟨hpull, hlink⟩ | ⟨-, hlink⟩⟩
  · -- the node stands at the head it is told of
    refine ⟨hsingle, by rw [hlink]; exact h.honest, ?_⟩
    rw [hlink]
    cases h.told with
    | had stored => exact .had stored
    | notified pending => exact .notified pending
    | watched changed => exact .watched changed
    | announced underway =>
      by_cases hsame : there.core.head = head
      · exact .had (by rw [hsame, hhead]; exact hhere.full.head_stored)
      · exact .announced ((List.mem_erase_of_ne hsame).2 underway)
    | owed again => exact .owed again
    | pulled running fresh => exact .pulled running fresh
  · -- a pull starts, and finds the head of the time it is opened
    have hnone : ∀ x, k.exchange ≠ some x := fun x hx => by
      rw [hidle hpull] at hx
      cases hx
    exact ⟨hsingle, fun x hx => absurd hx (hnone x), .pulled hlink fun x hx => absurd hx (hnone x)⟩
  · refine ⟨hsingle, fun x hx => ⟨(h.honest x hx).1, ?_⟩, .owed hlink⟩
    dsimp only
    rw [hlink]
    decide

omit [Externals] [Encoding] in
theorem PeerLink.Link.pull_mem_tasks {link : PeerLink.Link} (hsingle : link.Single) :
    PeerLink.Task.pull ∈ link.tasks ↔ link.pull ≠ .idle := by
  unfold PeerLink.Link.Single at hsingle
  rw [← List.count_pos_iff, hsingle]
  split
  · rename_i hidle
    simp [hidle]
  · rename_i hpull
    simp [hpull]

omit [Encoding] in
/-- A pull is served from the head its server is made with, so one that is opened now brings what there is
to tell of now. -/
theorem Connection.Kept.opens (h : k.Kept W there here) (hthere : there.Kept W) (hhere : here.Kept W)
    (task : PeerLink.Task.pull ∈ k.link.tasks) (pullerHead : EnvelopeDigest) :
    Connection.Kept W there here { k with exchange := some (.opening pullerHead there.core.head) } := by
  have hopening : ∀ still : Prop, ((Exchange.opening pullerHead there.core.head).pull here.core there.core).Honest still W
      (Exchange.opening pullerHead there.core.head).head :=
    fun _ => ⟨hhere.full, hthere.full, Pull.opening_talks here.core there.core pullerHead⟩
  refine ⟨h.single, fun x hx => ?_, ?_⟩
  · obtain rfl := Option.some.inj hx
    exact ⟨hopening False, (PeerLink.Link.pull_mem_tasks h.single).1 task⟩
  · cases h.told with
    | had stored => exact .had stored
    | notified pending => exact .notified pending
    | watched changed => exact .watched changed
    | announced underway => exact .announced underway
    | owed again => exact .owed again
    | pulled running fresh =>
      refine .pulled running fun x hx => ?_
      obtain rfl := Option.some.inj hx
      exact ⟨rfl, hopening True⟩

/-- A step of the session moves the pulling node as a batch does, or not at all. -/
theorem Pull.Honest.step_moves {still : Prop} {head : EnvelopeDigest} {p q : Pull} (h : p.Honest still W head)
    (step : Pull.Step head p q) : p.here.Moves W.contents q.here := by
  rcases step.here_cases with hsame | ⟨batch, pending, insert, front, hins⟩
  · rw [hsame]
    exact .tick p.here.storage.clock
  · have hmove : p.here.Moves W.contents (p.here.insertBatch batch).2 :=
      .insertBatch fun e he => ((h.ingest front).1 e he).1
    rw [hins] at hmove
    exact hmove

theorem Connection.Kept.talks (h : k.Kept W there here) (hhere : here.Kept W) {x : Exchange} (underway : k.exchange = some x)
    {q : Pull} (step : Pull.Step x.head (x.pull here.core there.core) q) :
    Connection.Kept W there (here.moved q.here) { k with exchange := some (x.went q) } := by
  have hmove := (h.honest x underway).1.step_moves step
  obtain ⟨-, hcore, -⟩ := hhere.moved hmove
  have hq : (x.went q).pull (here.moved q.here).core there.core = q := by
    rw [hcore]
    have hthere := step.there_eq
    obtain ⟨here', there', puller, server, toServer, toPuller⟩ := q
    dsimp only [Exchange.pull] at hthere
    subst hthere
    rfl
  refine ⟨h.single, fun y hy => ?_, ?_⟩
  · obtain rfl := Option.some.inj hy
    rw [hq]
    exact ⟨(h.honest x underway).1.step step, (h.honest x underway).2⟩
  · cases h.told with
    | had stored => exact .had (by rw [hcore]; exact (hhere.full.moves hmove).2.stored stored)
    | notified pending => exact .notified pending
    | watched changed => exact .watched changed
    | announced underway => exact .announced underway
    | owed again => exact .owed again
    | pulled running fresh =>
      refine .pulled running fun y hy => ?_
      obtain rfl := Option.some.inj hy
      rw [hq]
      exact ⟨(fresh x underway).1, (fresh x underway).2.step step⟩

omit [Encoding] in
/-- A pull that is over brought the head it was served from, which is the one there was to tell of unless
another pull follows. -/
theorem Connection.Kept.settles (h : k.Kept W there here) {x : Exchange} (underway : k.exchange = some x)
    {outcome : PullOutcome} (landed : x.puller.pending = [.done outcome]) :
    Connection.Kept W there here { k with
      link := (PeerLink.Link.settle { k.link with tasks := k.link.tasks.erase .pull } (.pulled (.ok outcome))).2
      exchange := none } := by
  have task := (PeerLink.Link.pull_mem_tasks h.single).2 (h.honest x underway).2
  have hopen : (PeerLink.Link.settle { k.link with tasks := k.link.tasks.erase .pull } (.pulled (.ok outcome))).1 = none :=
    PeerLink.Link.settle_flow _ _
  obtain ⟨hsingle, -, hphase, -⟩ := PeerLink.Link.settle_land h.single rfl task rfl hopen
  refine ⟨hsingle, fun y hy => (by cases hy), ?_⟩
  cases h.told with
  | had stored => exact .had stored
  | notified pending => exact .notified pending
  | watched changed => exact .watched changed
  | announced underway => exact .announced underway
  | owed again =>
    refine .pulled ?_ fun y hy => (by cases hy)
    have hland : k.link.pull.phase.land.1 = .running := by
      rw [again]
      rfl
    exact PeerLink.Pull.phase_eq_running.1 (hphase.trans hland)
  | pulled running fresh =>
    obtain ⟨hhead, hhonest⟩ := fresh x underway
    rw [hhead] at hhonest
    exact .had (hhonest.head_stored (hhonest.landed landed))

end Connections

/-! ## Runs -/

namespace Cluster

variable [Externals] {ι : Type} [DecidableEq ι] {W : World} {c c' : Cluster ι}

/-- What every state of a run satisfies. -/
structure Kept (W : World) (c : Cluster ι) : Prop where
  node : ∀ i, (c.nodes i).Kept W
  conn : ∀ e i k, c.conns e i = some k → k.Kept W (c.nodes e) (c.nodes i) ∧ e ≠ i

/-- A node that moves keeps what its connections rest on, whichever side of them it is. -/
theorem Kept.moves (h : c.Kept W) {i : ι} {core : Core} (move : (c.nodes i).core.Moves W.contents core) :
    (c.put i ((c.nodes i).moved core)).Kept W := by
  have hnodes : ∀ j, (c.put i ((c.nodes i).moved core)).nodes j = if j = i then (c.nodes i).moved core else c.nodes j :=
    fun j => by rw [put]; exact Function.update_apply ..
  refine ⟨fun j => ?_, fun e j k hk => ?_⟩
  · rw [hnodes]
    split
    · exact ((h.node i).moved move).1
    · exact h.node j
  · obtain ⟨hkept, hne⟩ := h.conn e j k hk
    refine ⟨?_, hne⟩
    rw [hnodes, hnodes]
    by_cases he : e = i
    · subst he
      rw [if_pos rfl, if_neg (Ne.symm hne)]
      exact hkept.there_moves (h.node e) move
    · rw [if_neg he]
      by_cases hj : j = i
      · subst hj
        rw [if_pos rfl]
        exact hkept.here_moves (h.node j) move
      · rw [if_neg hj]
        exact hkept

omit [Externals] in
theorem conns_link {e i e' i' : ι} {k : Option Connection} :
    (c.link e i k).conns e' i' = if e' = e ∧ i' = i then k else c.conns e' i' := rfl

theorem Kept.link (h : c.Kept W) {e i : ι} {k : Option Connection}
    (hk : ∀ k', k = some k' → k'.Kept W (c.nodes e) (c.nodes i) ∧ e ≠ i) : (c.link e i k).Kept W := by
  refine ⟨h.node, fun e' i' k' hk' => ?_⟩
  rw [conns_link] at hk'
  split at hk'
  · rename_i hsame
    obtain ⟨rfl, rfl⟩ := hsame
    exact hk k' hk'
  · exact h.conn e' i' k' hk'

/-- What the actor takes ends at the head, so there is nothing but the head left to announce. -/
theorem Kept.delivers (h : c.Kept W) {e : ι} {moved : ChangeNotification} {heads : Subscriber}
    (taken : (c.nodes e).heads.take = (some moved, heads)) :
    ((c.put e { c.nodes e with heads, watch := moved.head }).wake e).Kept W := by
  obtain ⟨hpending, rfl⟩ := Prod.mk.inj taken
  have hhead := (h.node e).pending moved hpending
  generalize hnode : ({ c.nodes e with heads := { (c.nodes e).heads with pending := none }, watch := moved.head } : Node) = node
  have hcore : node.core = (c.nodes e).core := hnode ▸ rfl
  have hnodes : ∀ j, ((c.put e node).wake e).nodes j = if j = e then node else c.nodes j :=
    fun j => by rw [wake, put]; exact Function.update_apply ..
  have hcores : ∀ j, (((c.put e node).wake e).nodes j).core = (c.nodes j).core := by
    intro j
    rw [hnodes]
    split
    · rename_i hj
      rw [hj, hcore]
    · rfl
  refine ⟨fun j => ?_, fun e' i k hk => ?_⟩
  · rw [hnodes]
    split
    · subst hnode
      exact ⟨(h.node e).full, (h.node e).filter, fun _ hm => (by cases hm), fun _ => hhead⟩
    · exact h.node j
  · by_cases he : e' = e
    · subst he
      obtain ⟨k', hk', rfl⟩ := Option.map_eq_some_iff.1 ((if_pos rfl).symm.trans hk)
      obtain ⟨hkept, hne⟩ := h.conn e' i k' hk'
      refine ⟨⟨hkept.single, fun x hx => ?_, .watched rfl⟩, hne⟩
      rw [hcores, hcores]
      exact hkept.honest x hx
    · obtain ⟨hkept, hne⟩ := h.conn e' i k ((if_neg he).symm.trans hk)
      rw [hnodes, if_neg he]
      exact ⟨hkept.here_congr (hcores i), hne⟩

theorem Kept.restart (h : c.Kept W) (i : ι) : (c.restart i).Kept W := by
  have hnodes : ∀ j, (c.restart i).nodes j = if j = i then .started (c.nodes i).core else c.nodes j :=
    fun j => by rw [Cluster.restart, put]; exact Function.update_apply ..
  refine ⟨fun j => ?_, fun e j k hk => ?_⟩
  · rw [hnodes]
    split
    · exact Node.kept_started (h.node i).full
    · exact h.node j
  · by_cases hgone : e = i ∨ j = i
    · cases (if_pos hgone).symm.trans hk
    · obtain ⟨he, hj⟩ := not_or.1 hgone
      rw [hnodes, hnodes, if_neg he, if_neg hj]
      exact h.conn e j k ((if_neg hgone).symm.trans hk)

variable [Encoding]

theorem Kept.work (h : c.Kept W) (work : c.Work c') : c'.Kept W := by
  cases work with
  | delivers taken => exact h.delivers taken
  | @announces e i k up changed =>
    obtain ⟨hkept, hne⟩ := h.conn e i k up
    refine h.link fun k' hk' => ?_
    obtain rfl := Option.some.inj hk'
    exact ⟨hkept.announces (h.node e), hne⟩
  | @hears e i k head up underway =>
    obtain ⟨hkept, hne⟩ := h.conn e i k up
    refine h.link fun k' hk' => ?_
    obtain rfl := Option.some.inj hk'
    exact ⟨hkept.hears_news (h.node i) head, hne⟩
  | @opens e i k up task unopened pullerHead =>
    obtain ⟨hkept, hne⟩ := h.conn e i k up
    refine h.link fun k' hk' => ?_
    obtain rfl := Option.some.inj hk'
    exact ⟨hkept.opens (h.node e) (h.node i) task pullerHead, hne⟩
  | @talks e i k x q up underway step =>
    obtain ⟨hkept, hne⟩ := h.conn e i k up
    have hmoved := h.moves ((hkept.honest x underway).1.step_moves step)
    refine hmoved.link fun k' hk' => ?_
    obtain rfl := Option.some.inj hk'
    have hthere : (c.put i ((c.nodes i).moved q.here)).nodes e = c.nodes e := Function.update_of_ne hne ..
    have hhere : (c.put i ((c.nodes i).moved q.here)).nodes i = (c.nodes i).moved q.here := Function.update_self ..
    rw [hthere, hhere]
    exact ⟨hkept.talks (h.node i) underway step, hne⟩
  | @settles e i k x outcome up underway landed =>
    obtain ⟨hkept, hne⟩ := h.conn e i k up
    refine h.link fun k' hk' => ?_
    obtain rfl := Option.some.inj hk'
    exact ⟨hkept.settles underway landed, hne⟩

theorem Kept.step (h : c.Kept W) (step : c.Step W.contents c') : c'.Kept W := by
  cases step with
  | work work => exact h.work work
  | moves move => exact h.moves move
  | @connects e i other =>
    refine h.link fun k' hk' => ?_
    obtain rfl := Option.some.inj hk'
    exact ⟨Connection.kept_new (h.node e), other⟩
  | drops e i => exact h.link fun k' hk' => (by cases hk')
  | restarts i => exact h.restart i

theorem Runs.kept {start : Cluster ι} (h : Cluster.Runs W.contents start c) (hstart : start.Kept W) : c.Kept W := by
  induction h with
  | start => exact hstart
  | step _ step ih => exact ih.step step

/-- With nothing left to do, who hears of a node has its head. -/
theorem Kept.told (h : c.Kept W) (quiet : c.Quiet)
    (short : ∀ i path, (c.nodes i).core.walkCanonical = .ok path → path.length ≤ 2 ^ 62) {e i : ι} (hears : c.Hears e i) :
    (c.nodes i).core.storage.Stored (c.nodes e).core.head := by
  obtain ⟨k, up⟩ := Option.isSome_iff_exists.1 hears
  obtain ⟨hkept, -⟩ := h.conn e i k up
  -- a pull that runs has a step left to take
  have hidle : k.link.pull = .idle := by
    by_contra hpull
    have htask := (PeerLink.Link.pull_mem_tasks hkept.single).2 hpull
    cases hx : k.exchange with
    | none => exact quiet _ (.opens up htask hx (c.nodes i).core.head)
    | some x =>
      rcases (hkept.honest x hx).1.progress (short i) with ⟨q, step⟩ | ⟨outcome, landed⟩
      · exact quiet _ (.talks up hx step)
      · exact quiet _ (.settles up hx landed)
  cases hkept.told with
  | had stored => exact stored
  | notified pending =>
    obtain ⟨moved, hmoved⟩ := Option.isSome_iff_exists.1 pending
    exact absurd (Work.delivers (e := e) (Prod.ext hmoved rfl)) (quiet _)
  | watched changed => exact absurd (Work.announces up changed) (quiet _)
  | announced underway => exact absurd (Work.hears up underway) (quiet _)
  | owed again => rw [hidle] at again; cases again
  | pulled running => rw [hidle] at running; cases running

/-- And nodes that hear of each other stand at one head, on one state. -/
theorem Kept.same_heads (h : c.Kept W) (quiet : c.Quiet)
    (short : ∀ i path, (c.nodes i).core.walkCanonical = .ok path → path.length ≤ 2 ^ 62) {i j : ι}
    (hij : Relation.ReflTransGen c.Hears i j) (hji : Relation.ReflTransGen c.Hears j i) :
    (c.nodes i).core.head = (c.nodes j).core.head ∧ ∃ state,
      (c.nodes i).core.chain.checkpoint (c.nodes i).core.storage = .ok state ∧
        (c.nodes j).core.chain.checkpoint (c.nodes j).core.storage = .ok state := by
  have hbefore : ∀ e i, c.Hears e i → Before W.prev W.rank (c.nodes e).core.head (c.nodes i).core.head :=
    fun e i hears => (h.node i).full.before_head (h.told quiet short hears)
  have hhead := Before.eq_of_connected World.acyclic hbefore hij hji
  exact ⟨hhead, (h.node i).full.good.same_checkpoint (h.node j).full.good hhead⟩

/-- Nodes of one `Init` start out so. -/
theorem Runs.exists_kept {contents : Set SignedPortion} (laws : DigestLaws contents) {start : Envelope}
    (content : start.toSignedPortion ∈ contents) {cores : ι → Core} (grown : ∀ i, (cores i).Grown contents start) (i₀ : ι)
    (run : Cluster.Runs contents (Cluster.started cores) c) : ∃ W : World, W.contents = contents ∧ c.Kept W := by
  obtain ⟨W, rfl, hfull⟩ := (grown i₀).exists_world laws content
  exact ⟨W, rfl, run.kept ⟨fun i => Node.kept_started (hfull _ (grown i)), fun _ _ _ hk => (by cases hk)⟩⟩

end Cluster

end IrohLotus.Lotusd

/-! ## The samples -/

namespace IrohLotus.Lotusd

open Std Outcome IrohLotus.Wire IrohLotus.Wire.Sample IrohLotus.Storage IrohLotus.State IrohLotus.Sync

theorem Node.core_moved [Externals] (node : Node) (core : Core) : (node.moved core).core = core := by
  unfold Node.moved
  dsimp only
  split
  · split <;> rfl
  · rfl

theorem Node.watch_moved [Externals] (node : Node) (core : Core) : (node.moved core).watch = node.watch := by
  unfold Node.moved
  dsimp only
  split
  · split <;> rfl
  · rfl

theorem Pull.there_eq_of_steps [Externals] [Encoding] {head : EnvelopeDigest} {p q : Pull}
    (steps : Relation.ReflTransGen (Pull.Step head) p q) : q.there = p.there := by
  induction steps with
  | refl => rfl
  | tail _ step ih => exact step.there_eq.trans ih

/-- One connection and no other. -/
def Cluster.only {ι : Type} [DecidableEq ι] (e i : ι) (k : Connection) : ι → ι → Option Connection :=
  fun e' i' => if e' = e ∧ i' = i then some k else none

theorem Cluster.only_link {ι : Type} [DecidableEq ι] {c : Cluster ι} {e i : ι} {k : Connection}
    (hconns : ∀ e' i', ¬ (e' = e ∧ i' = i) → c.conns e' i' = none) : (c.link e i (some k)).conns = Cluster.only e i k := by
  funext e' i'
  rw [Cluster.conns_link]
  unfold Cluster.only
  split
  · rfl
  · rename_i hnot
    exact hconns e' i' hnot

theorem Cluster.only_ne {ι : Type} [DecidableEq ι] {c : Cluster ι} {e i : ι} {k : Connection} (hconns : c.conns = Cluster.only e i k)
    (e' i' : ι) (hnot : ¬ (e' = e ∧ i' = i)) : c.conns e' i' = none := by
  rw [hconns]
  exact if_neg hnot

theorem Cluster.only_up {ι : Type} [DecidableEq ι] {c : Cluster ι} {e i : ι} {k : Connection}
    (hconns : c.conns = Cluster.only e i k) : c.conns e i = some k := by
  rw [hconns]
  exact if_pos ⟨rfl, rfl⟩

/-- A session may go on to its end. -/
theorem Cluster.Runs.talks [Externals] [Encoding] {ι : Type} [DecidableEq ι] {contents : Set SignedPortion} {start c : Cluster ι}
    (run : Cluster.Runs contents start c) {e i : ι} (hne : e ≠ i) {k : Connection} {x : Exchange} {q : Pull}
    (hconns : c.conns = Cluster.only e i { k with exchange := some x })
    (steps : Relation.ReflTransGen (Pull.Step x.head) (x.pull (c.nodes i).core (c.nodes e).core) q) :
    ∃ c', Cluster.Runs contents start c' ∧ (c'.nodes i).core = q.here ∧ (c'.nodes i).watch = (c.nodes i).watch ∧
      (∀ j, j ≠ i → c'.nodes j = c.nodes j) ∧ c'.conns = Cluster.only e i { k with exchange := some (x.went q) } := by
  induction steps with
  | refl => exact ⟨c, run, rfl, rfl, fun _ _ => rfl, hconns⟩
  | @tail q r steps step ih =>
    obtain ⟨c', run', hcore, hwatch, hothers, hconns'⟩ := ih
    have hthere : q.there = (c.nodes e).core := Pull.there_eq_of_steps steps
    have hpull : (x.went q).pull (c'.nodes i).core (c'.nodes e).core = q := by
      rw [hcore, hothers e hne, ← hthere]
      rfl
    refine ⟨_, .step run' (.work (.talks (Cluster.only_up hconns') rfl (by rw [hpull]; exact step))), ?_, ?_, fun j hj => ?_, ?_⟩
    · show (Function.update c'.nodes i _ i).core = r.here
      rw [Function.update_self, Node.core_moved]
    · show (Function.update c'.nodes i _ i).watch = _
      rw [Function.update_self, Node.watch_moved, hwatch]
    · show Function.update c'.nodes i _ j = _
      rw [Function.update_of_ne hj, hothers j hj]
    · exact Cluster.only_link (Cluster.only_ne hconns')

/-- One node two envelopes on, which dials another at genesis. -/
def sampleCores (ahead : Bool) : Core := if ahead then linearCore else genesisCore

end IrohLotus.Lotusd
