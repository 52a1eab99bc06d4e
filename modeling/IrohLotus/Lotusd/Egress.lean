/-
The egress actor beside the core it follows (`lotusd::peer_egress`): it opens two subscriptions, reads
the cluster nodes again whenever the one on them wakes it, one read at a time, and announces the head
the other told it of last. However inserts, publishes, wakes, reads and reconciles interleave, when it
comes to rest it dials what the ledger lists and announces where the chain stands.
-/
import IrohLotus.Lib.Reread
import IrohLotus.Lotusd.Admit
import IrohLotus.Lotusd.Owed
import IrohLotus.Lotusd.PeerEgress

namespace IrohLotus.Lotusd

open Std Outcome IrohLotus.Wire IrohLotus.Storage IrohLotus.State

/-! ## What the ledger lists -/

section Listed

variable [Externals] {W : World} {σ σ' : System}

/-- How to reach each node the cluster lists, as the mainloop answers it. -/
def System.peerAddresses (σ : System) : Res ApplyError PeerEgress.Desired := σ.chain.ledger.peerAddresses σ.store

theorem Invariant.peerAddresses (h : Invariant W σ) : ∃ desired, σ.peerAddresses = .ok desired := by
  obtain ⟨base, hl⟩ := h.live
  obtain ⟨v, hv, hstate⟩ := hl.exists_head
  exact Ledger.peerAddresses_of_ruled hv hstate.ruled

/-- It is read off the nodes alone. -/
theorem Invariant.peerAddresses_eq (h : Invariant W σ) (h' : Invariant W σ')
    (same : σ'.reads (·[clusterNodesKey]?) = σ.reads (·[clusterNodesKey]?)) : σ'.peerAddresses = σ.peerAddresses := by
  obtain ⟨base, hl⟩ := h.live
  obtain ⟨base', hl'⟩ := h'.live
  obtain ⟨v, hv, -⟩ := hl.exists_head
  obtain ⟨v', hv', -⟩ := hl'.exists_head
  unfold System.reads at same
  rw [hv, hv', Option.map_some, Option.map_some] at same
  unfold System.peerAddresses Ledger.peerAddresses
  have hread : σ.store.versions[σ.chain.ledger.head]? = some v := hv
  have hread' : σ'.store.versions[σ'.chain.ledger.head]? = some v' := hv'
  rw [Ledger.nsAt_eq_ok hread, Ledger.nsAt_eq_ok hread', Option.some.inj same]

theorem System.peerAddresses_congr (hchain : σ'.chain = σ.chain) (hstore : σ'.store = σ.store) :
    σ'.peerAddresses = σ.peerAddresses := by
  unfold System.peerAddresses
  rw [hchain, hstore]

end Listed

end IrohLotus.Lotusd

namespace IrohLotus.Lotusd.PeerEgress

open Std Outcome Reread IrohLotus.Wire IrohLotus.Storage IrohLotus.State

/-! ## Refreshing -/

section Refreshing

variable [Externals]

/-- A read of the ledger under way. -/
abbrev Read := Trip (Res ApplyError Desired)

/-- Coalesces reads of the ledger: one in flight at a time, and one more owed only meanwhile. -/
structure Refresh where
  inFlight : Bool
  again : Bool
  owed : again = true → inFlight = true

namespace Refresh

def default : Refresh := ⟨false, false, id⟩

/-- Asks for a read, or notes that one is wanted once the current one lands. -/
def request (refresh : Refresh) : Refresh × List Read :=
  if refresh.inFlight then (⟨true, true, id⟩, []) else ({ refresh with inFlight := true, owed := fun _ => rfl }, [.out])

/-- The read landed; issues the one that was waiting on it, if any. -/
def landed (refresh : Refresh) : Refresh × List Read := if refresh.again then default.request else (default, [])

/-- Where the reading stands. -/
def phase (refresh : Refresh) : Coalesce.Phase :=
  if refresh.again then .again else if refresh.inFlight then .running else .idle

theorem request_phase (refresh : Refresh) : refresh.request.1.phase = refresh.phase.request.1 ∧
    refresh.request.2 = departures refresh.phase.request.2 := by
  obtain ⟨inFlight, again, howed⟩ := refresh
  cases inFlight <;> cases again
  · exact ⟨rfl, rfl⟩
  · cases howed rfl
  · exact ⟨rfl, rfl⟩
  · exact ⟨rfl, rfl⟩

theorem landed_phase (refresh : Refresh) : refresh.landed.1.phase = refresh.phase.land.1 ∧
    refresh.landed.2 = departures refresh.phase.land.2 := by
  obtain ⟨inFlight, again, howed⟩ := refresh
  cases inFlight <;> cases again
  · exact ⟨rfl, rfl⟩
  · cases howed rfl
  · exact ⟨rfl, rfl⟩
  · exact ⟨rfl, rfl⟩

omit [Externals] in
theorem phase_idle {refresh : Refresh} (h : refresh.inFlight = false) : refresh.phase = .idle := by
  obtain ⟨inFlight, again, howed⟩ := refresh
  obtain rfl : inFlight = false := h
  cases again
  · rfl
  · cases howed rfl

end Refresh

end Refreshing

/-! ## The actor and its core -/

section Actor

variable [Externals] [DecidableEq Externals.EndpointId]

/-- The actor running beside a core: the subscriptions it opened on the nodes and on the head, its reads
of the ledger, its table, the set it read last and the head it announces. -/
structure Actor where
  system : System
  nodes : Nat
  heads : Nat
  refresh : Refresh
  reads : List Read
  peers : State
  desired : Desired
  announced : EnvelopeDigest

/-- `spawn` opens the subscriptions while nothing else can move the core, and `run` starts by reading. -/
def Actor.spawn (σ : System) : Actor :=
  { system := (σ.register (.of (.namespace clusterNodesKey))).register (.of .head), nodes := σ.subscriptions.length,
    heads := σ.subscriptions.length + 1, refresh := Refresh.default.request.1, reads := Refresh.default.request.2,
    peers := .empty, desired := ∅, announced := σ.chain.head }

/-- What the actor does with a set it was handed; one that could not be read leaves the table alone. -/
def Actor.handed (egress : Egress) (actor : Actor) : Res ApplyError Desired → Actor
  | .ok desired => { actor with peers := egress.reconcile desired actor.peers, desired }
  | .error _ => actor

/-- One step of the actor or of the core beside it. The core's own leave the actor's subscriptions
registered and hand their readers nothing. -/
inductive Actor.Step (contents : Set SignedPortion) (egress : Egress) (admits : State → Desired → Prop) (actor : Actor) :
    Actor → Prop
  | core {system : System} (step : System.Step contents actor.system system)
    (beside : ∀ id, id = actor.nodes ∨ id = actor.heads → System.Beside id actor.system system) : Step contents egress admits actor { actor with system }
  | nodes {sub : Subscription} (found : actor.system.subscription actor.nodes = some sub) (checking : sub.reader = .checking)
    (pending : sub.shared.pending.isSome = true) : Step contents egress admits actor { actor with
      system := actor.system.takes actor.nodes, refresh := actor.refresh.request.1, reads := actor.reads ++ actor.refresh.request.2 }
  | heads {sub : Subscription} {moved : ChangeNotification} (found : actor.system.subscription actor.heads = some sub)
    (checking : sub.reader = .checking) (pending : sub.shared.pending = some moved) : Step contents egress admits actor { actor with
      system := actor.system.takes actor.heads, announced := moved.head }
  | reads {before after : List Read} (idle : actor.system.mainloop = .idle)
    (split : actor.reads = before ++ .out :: after) : Step contents egress admits actor { actor with
      reads := before ++ .back actor.system.peerAddresses :: after }
  | lands {found : Res ApplyError Desired} {before after : List Read}
    (split : actor.reads = before ++ .back found :: after) (admitted : ∀ desired, found = .ok desired → admits actor.peers desired) :
    Step contents egress admits actor { actor.handed egress found with
      refresh := actor.refresh.landed.1, reads := before ++ after ++ actor.refresh.landed.2 }
  | reaps {id : Nat} {task : Task} (held : actor.peers.tasks[id]? = some task) (cancelled : task.cancelled = true) :
    Step contents egress admits actor { actor with peers := actor.peers.reap id }

/-- The states an actor can come to, spawned by a core between two requests, with refreshes that
`admits` allows. -/
inductive Actor.Runs (contents : Set SignedPortion) (egress : Egress) (admits : State → Desired → Prop) : Actor → Prop
  | spawned {σ : System} (core : System.Runs contents σ) (idle : σ.mainloop = .idle) : Runs contents egress admits (.spawn σ)
  | step {actor actor' : Actor} (before : Runs contents egress admits actor) (step : actor.Step contents egress admits actor') :
    Runs contents egress admits actor'

/-- Nothing is left to do: the core publishes nothing, both readers sleep without a wake in their
channels, and no read is in flight. -/
structure Actor.Rests (actor : Actor) : Prop where
  mainloop : actor.system.mainloop = .idle
  asleep : ∀ id, id = actor.nodes ∨ id = actor.heads →
    ∃ sub, actor.system.subscription id = some sub ∧ sub.reader = .blocked ∧ sub.shared.wake = false
  refresh : actor.refresh.inFlight = false

/-! ## What every state satisfies -/

/-- What a run keeps. -/
structure Actor.Kept (contents : Set SignedPortion) (egress : Egress) (admits : State → Desired → Prop) (actor : Actor) : Prop where
  core : System.Runs contents actor.system
  apart : actor.nodes ≠ actor.heads
  reading : ∃ sub last, actor.system.subscription actor.nodes = some sub ∧
    sub.shared.filter = .of (.namespace clusterNodesKey) ∧
    Reread.Kept actor.system.peerAddresses ⟨actor.system.Owes actor.nodes sub, actor.refresh.phase, actor.reads, last⟩ ∧
    ∀ desired, last = some (.ok desired) → actor.desired = desired
  announcing : ∃ sub, actor.system.subscription actor.heads = some sub ∧ sub.shared.filter = .of .head ∧
    actor.announced = (sub.taken.getLast?.map (·.head)).getD sub.openedAt
  table : PeerEgress.Runs egress admits actor.peers actor.desired

variable {contents : Set SignedPortion} {egress : Egress} {admits : State → Desired → Prop} {actor actor' : Actor}

omit [DecidableEq Externals.EndpointId] in
/-- What the two subscriptions open as. -/
theorem subscription_spawn (σ : System) :
    (Actor.spawn σ).system.subscription (Actor.spawn σ).nodes =
      some ⟨.registered (.of (.namespace clusterNodesKey)), σ.chain.head, .idle, σ.moves.length, []⟩ ∧
    (Actor.spawn σ).system.subscription (Actor.spawn σ).heads =
      some ⟨.registered (.of .head), σ.chain.head, .idle, σ.moves.length, []⟩ := by
  have hgrown : (σ.register (.of (.namespace clusterNodesKey))).subscriptions.length = σ.subscriptions.length + 1 := by
    simp [System.register]
  refine ⟨(System.subscription_register_of_lt (by rw [hgrown]; exact Nat.lt_succ_self _)).trans
    (System.subscription_register σ _), ?_⟩
  have h := System.subscription_register (σ.register (.of (.namespace clusterNodesKey))) (.of .head)
  rw [hgrown] at h
  exact h

theorem Actor.kept_spawn {σ : System} (core : System.Runs contents σ) (idle : σ.mainloop = .idle) :
    Actor.Kept contents egress admits (.spawn σ) := by
  obtain ⟨hnodes, hheads⟩ := subscription_spawn σ
  exact ⟨.step (.step core (.register _ idle)) (.register _ idle), Nat.ne_of_lt (Nat.lt_succ_self _),
    ⟨_, none, hnodes, rfl, kept_started, fun _ h => (by cases h)⟩, ⟨_, hheads, rfl, rfl⟩, .start⟩

/-- The core moved beside the actor. -/
theorem Actor.Kept.core_step (laws : DigestLaws contents) (h : Actor.Kept contents egress admits actor) {system : System}
    (step : System.Step contents actor.system system)
    (beside : ∀ id, id = actor.nodes ∨ id = actor.heads → System.Beside id actor.system system) :
    Actor.Kept contents egress admits { actor with system } := by
  obtain ⟨sub, last, hsub, hfilter, hreading, hlast⟩ := h.reading
  obtain ⟨sub₁, hsub₁, hfilter₁, hannounced⟩ := h.announcing
  obtain ⟨W, rfl, hi⟩ := h.core.invariant laws
  obtain ⟨sub', hstays⟩ := step.stays hsub (beside _ (.inl rfl))
  obtain ⟨sub₁', hstays₁⟩ := step.stays hsub₁ (beside _ (.inr rfl))
  have hfilter' := hstays.filter.trans hfilter
  refine ⟨.step h.core step, h.apart, ⟨sub', last, hstays.found, hfilter', ?_, hlast⟩,
    ⟨sub₁', hstays₁.found, hstays₁.filter.trans hfilter₁, ?_⟩, h.table⟩
  · refine hreading.step (.moves (fun hne => ?_) hstays.owes)
    refine step.owes (framed_namespace clusterNodesKey) hi (fun same => hne (hi.peerAddresses_eq (hi.step step) same))
      fun movement htouch => ?_
    rw [hfilter']
    simpa [ChangeFilter.matches, ChangeFilter.of, ChangeFilter.selectors, ChangeSelector.selects] using htouch
  · rw [hstays₁.taken, hstays₁.openedAt]
    exact hannounced

/-- The nodes' reader took what was pending: one more read is asked for. -/
theorem Actor.Kept.nodes_step (h : Actor.Kept contents egress admits actor) {sub : Subscription}
    (found : actor.system.subscription actor.nodes = some sub) (checking : sub.reader = .checking)
    (pending : sub.shared.pending.isSome = true) : Actor.Kept contents egress admits { actor with
      system := actor.system.takes actor.nodes, refresh := actor.refresh.request.1, reads := actor.reads ++ actor.refresh.request.2 } := by
  obtain ⟨sub₀, last, hsub, hfilter, hreading, hlast⟩ := h.reading
  rw [found] at hsub
  cases hsub
  obtain ⟨sub₁, hsub₁, hfilter₁, hannounced⟩ := h.announcing
  obtain ⟨moved, hmoved⟩ := Option.isSome_iff_exists.1 pending
  refine ⟨.step h.core (.take _), h.apart, ⟨sub.take, last, ?_, ?_, ?_, hlast⟩, ⟨sub₁, ?_, hfilter₁, hannounced⟩, h.table⟩
  · rw [System.subscription_takes found checking, if_pos rfl]
  · rw [Subscription.take_some hmoved]
    exact hfilter
  · -- a publish under way may already have more for it
    have hwoken := hreading.step (.wakes (.inl pending))
    rw [← (Refresh.request_phase actor.refresh).1, ← (Refresh.request_phase actor.refresh).2] at hwoken
    exact hwoken.step (.moves (fun hne => absurd rfl hne) False.elim)
  · rw [System.subscription_takes found checking, if_neg h.apart]
    exact hsub₁

/-- The head's reader took what was pending: its head is announced. -/
theorem Actor.Kept.heads_step (h : Actor.Kept contents egress admits actor) {sub : Subscription} {moved : ChangeNotification}
    (found : actor.system.subscription actor.heads = some sub) (checking : sub.reader = .checking)
    (pending : sub.shared.pending = some moved) :
    Actor.Kept contents egress admits { actor with system := actor.system.takes actor.heads, announced := moved.head } := by
  obtain ⟨sub₀, last, hsub, hfilter, hreading, hlast⟩ := h.reading
  obtain ⟨sub₁, hsub₁, hfilter₁, -⟩ := h.announcing
  rw [found] at hsub₁
  cases hsub₁
  refine ⟨.step h.core (.take _), h.apart, ⟨sub₀, last, ?_, hfilter, ?_, hlast⟩, ⟨sub.take, ?_, ?_, ?_⟩, h.table⟩
  · rw [System.subscription_takes found checking, if_neg h.apart.symm]
    exact hsub
  · exact hreading.step (.moves (fun hne => absurd rfl hne) fun h => h)
  · rw [System.subscription_takes found checking, if_pos rfl]
  · rw [Subscription.take_some pending]
    exact hfilter₁
  · rw [Subscription.take_some pending, List.getLast?_concat]
    rfl

theorem Actor.Kept.lands_step (h : Actor.Kept contents egress admits actor) {found : Res ApplyError Desired}
    {before after : List Read} (split : actor.reads = before ++ .back found :: after)
    (admitted : ∀ desired, found = .ok desired → admits actor.peers desired) : Actor.Kept contents egress admits
      { actor.handed egress found with refresh := actor.refresh.landed.1, reads := before ++ after ++ actor.refresh.landed.2 } := by
  obtain ⟨sub, last, hsub, hfilter, hreading, hlast⟩ := h.reading
  have hlanded := hreading.step (.lands split)
  rw [← (Refresh.landed_phase actor.refresh).1, ← (Refresh.landed_phase actor.refresh).2] at hlanded
  cases found with
  | ok desired =>
    refine ⟨h.core, h.apart, ⟨sub, some (.ok desired), hsub, hfilter, hlanded, fun desired' h => ?_⟩, h.announcing,
      .desired h.table (admitted desired rfl)⟩
    cases h
    rfl
  | error e => exact ⟨h.core, h.apart, ⟨sub, some (.error e), hsub, hfilter, hlanded, fun _ h => (by cases h)⟩, h.announcing, h.table⟩

theorem Actor.Kept.step (laws : DigestLaws contents) (h : Actor.Kept contents egress admits actor)
    (step : actor.Step contents egress admits actor') : Actor.Kept contents egress admits actor' := by
  cases step with
  | core step beside => exact h.core_step laws step beside
  | nodes found checking pending => exact h.nodes_step found checking pending
  | heads found checking pending => exact h.heads_step found checking pending
  | reads idle split =>
    obtain ⟨sub, last, hsub, hfilter, hreading, hlast⟩ := h.reading
    exact ⟨h.core, h.apart, ⟨sub, last, hsub, hfilter, hreading.step (.reads (.inr rfl) split), hlast⟩, h.announcing, h.table⟩
  | lands split admitted => exact h.lands_step split admitted
  | reaps held cancelled => exact ⟨h.core, h.apart, h.reading, h.announcing, .ended h.table held cancelled⟩

theorem Actor.Runs.kept (laws : DigestLaws contents) (h : Actor.Runs contents egress admits actor) :
    Actor.Kept contents egress admits actor := by
  induction h with
  | spawned core idle => exact Actor.kept_spawn core idle
  | step _ step ih => exact ih.step laws step

/-! ## At rest -/

theorem Runs.mono {admits' : State → Desired → Prop} (himp : ∀ σ desired, admits σ desired → admits' σ desired) {σ : State}
    {desired : Desired} (h : Runs egress admits σ desired) : Runs egress admits' σ desired := by
  induction h with
  | start => exact .start
  | desired _ admitted ih => exact .desired ih (himp _ _ admitted)
  | ended _ held cancelled ih => exact .ended ih held cancelled

/-- Whatever the interleaving, an actor that rests has read what its ledger lists where the chain now
stands and announces that head; and where no refresh named a node again before its cancelled task was
reaped, its table dials exactly the nodes listed. -/
theorem Actor.Runs.rests_following (laws : DigestLaws contents) (h : Actor.Runs contents egress admits actor)
    (rests : actor.Rests) :
    actor.system.peerAddresses = .ok actor.desired ∧ actor.announced = actor.system.chain.head ∧
      ((∀ σ desired, admits σ desired → Unshadowed egress σ desired) → PeerEgress.Invariant egress actor.desired actor.peers) := by
  have hkept := h.kept laws
  obtain ⟨W, rfl, hi⟩ := hkept.core.invariant laws
  refine ⟨?_, ?_, fun himp => (hkept.table.mono himp).invariant⟩
  · obtain ⟨sub, last, hsub, -, hreading, hlast⟩ := hkept.reading
    obtain ⟨sub', hsub', hblocked, hunwoken⟩ := rests.asleep _ (.inl rfl)
    rw [hsub] at hsub'
    cases hsub'
    obtain ⟨-, huntold⟩ := untold_of_asleep hi rests.mainloop hsub hblocked hunwoken
    obtain ⟨desired, hread⟩ := hi.peerAddresses
    have hknown := hreading.rest huntold (Refresh.phase_idle rests.refresh)
    rw [hread] at hknown ⊢
    rw [hlast desired hknown]
  · obtain ⟨sub, hsub, hfilter, hannounced⟩ := hkept.announcing
    obtain ⟨sub', hsub', hblocked, hunwoken⟩ := rests.asleep _ (.inr rfl)
    rw [hsub] at hsub'
    cases hsub'
    obtain ⟨hpending, -⟩ := untold_of_asleep hi rests.mainloop hsub hblocked hunwoken
    have hsubkept := hi.kept _ _ (System.subscription_eq_some.1 hsub)
    obtain ⟨merged, hmerged, haccounted⟩ := hsubkept.accounted
    have hall : (actor.system.moves.drop sub.opened).filter (fun p => sub.shared.filter.matches p.movement) =
        actor.system.moves.drop sub.opened := List.filter_eq_self.2 fun p _ => by rw [hfilter]; rfl
    rw [System.owed_idle rests.mainloop, List.append_nil, hall] at hmerged
    rw [hpending, Option.toList_none, List.append_nil, hmerged] at haccounted
    rw [hannounced, head_of_accounted haccounted]
    exact head_of_spans hsubkept.spans

/-! ## Going to sleep -/

theorem Actor.Runs.core_steps (h : Actor.Runs contents egress admits actor) {system : System}
    (steps : Relation.ReflTransGen (System.Aside contents) actor.system system) :
    Actor.Runs contents egress admits { actor with system } := by
  induction steps with
  | refl => exact h
  | tail _ step ih => exact .step ih (.core step.step fun id _ => step.beside id)

/-- A resting actor has nothing to hear of, and reads nothing. -/
theorem Actor.Rests.quiet (laws : DigestLaws contents) (h : Actor.Runs contents egress admits actor) (rests : actor.Rests) :
    actor.refresh = Refresh.default ∧ actor.reads = [] ∧ actor.nodes ≠ actor.heads ∧
      (∃ sub, actor.system.subscription actor.nodes = some sub ∧ sub.shared.filter = .of (.namespace clusterNodesKey) ∧
        sub.reader = .blocked) ∧
      ∃ sub, actor.system.subscription actor.heads = some sub ∧ sub.shared.filter = .of .head ∧ sub.reader = .blocked := by
  have hkept := h.kept laws
  obtain ⟨nodes, last, hnodes, hfilter, hreading, -⟩ := hkept.reading
  obtain ⟨heads, hheads, hfilter', -⟩ := hkept.announcing
  have hblocked : ∀ {id : Nat} {sub : Subscription}, id = actor.nodes ∨ id = actor.heads →
      actor.system.subscription id = some sub → sub.reader = .blocked := by
    intro id sub hid hsub
    obtain ⟨sub', hsub', hasleep, -⟩ := rests.asleep id hid
    rw [hsub] at hsub'
    cases hsub'
    exact hasleep
  have hdefault : actor.refresh = Refresh.default := by
    have hidle := rests.refresh
    generalize actor.refresh = refresh at hidle
    obtain ⟨inFlight, again, howed⟩ := refresh
    obtain rfl : inFlight = false := hidle
    cases again
    · rfl
    · cases howed rfl
  have hreads : actor.reads = [] := by
    have hsingle := hreading.single
    rw [if_pos (Refresh.phase_idle rests.refresh)] at hsingle
    exact List.length_eq_zero_iff.1 hsingle
  exact ⟨hdefault, hreads, hkept.apart, ⟨nodes, hnodes, hfilter, hblocked (.inl rfl) hnodes⟩,
    heads, hheads, hfilter', hblocked (.inr rfl) hheads⟩

/-- Woken for the nodes, the actor takes what it is told of and reads them again. -/
theorem Actor.Runs.rereads (h : Actor.Runs contents egress admits actor) (idle : actor.system.mainloop = .idle)
    (home : actor.refresh = Refresh.default) (unread : actor.reads = []) (woken : actor.system.Woken actor.nodes)
    {desired : Desired} (listed : actor.system.peerAddresses = .ok desired) (admitted : admits actor.peers desired) :
    ∃ actor', Actor.Runs contents egress admits actor' ∧ actor'.system.mainloop = .idle ∧
      actor'.refresh = Refresh.default ∧ (actor'.nodes = actor.nodes ∧ actor'.heads = actor.heads) ∧
      (actor'.system.chain = actor.system.chain ∧ actor'.system.store = actor.system.store) ∧
      actor'.peers = egress.reconcile desired actor.peers ∧ actor'.system.Sated actor'.nodes ∧
      ∀ id, actor.nodes ≠ id → actor'.system.subscription id = actor.system.subscription id := by
  obtain ⟨⟨looking, moved, hlooking, hchecking, hpending⟩, htook, hbeside⟩ := woken.takes
  have hasked := (h.core_steps (.single (System.aside_polled actor.system actor.nodes))).step
    (.nodes hlooking hchecking (by rw [hpending]; rfl))
  have hout : actor.reads ++ actor.refresh.request.2 = [] ++ .out :: [] := by
    rw [unread, home]
    rfl
  have hread := hasked.step (.reads idle hout)
  have hback : ([] ++ .back ((actor.system.polled actor.nodes).takes actor.nodes).peerAddresses :: [] : List Read) =
      [] ++ .back (.ok desired) :: [] := congrArg (fun found => [Trip.back found]) listed
  have hlanded := hread.step (.lands hback fun desired' h => by cases h; exact admitted)
  exact ⟨_, hlanded, idle, by rw [home]; rfl, ⟨rfl, rfl⟩, ⟨rfl, rfl⟩, rfl, htook, hbeside⟩

/-- Woken for the head, it announces the one it is told of. -/
theorem Actor.Runs.announces (h : Actor.Runs contents egress admits actor) (woken : actor.system.Woken actor.heads) :
    ∃ actor', Actor.Runs contents egress admits actor' ∧ actor'.system.mainloop = actor.system.mainloop ∧
      actor'.refresh = actor.refresh ∧ (actor'.nodes = actor.nodes ∧ actor'.heads = actor.heads) ∧
      (actor'.system.chain = actor.system.chain ∧ actor'.system.store = actor.system.store) ∧
      actor'.peers = actor.peers ∧ actor'.system.Sated actor'.heads ∧
      ∀ id, actor.heads ≠ id → actor'.system.subscription id = actor.system.subscription id := by
  obtain ⟨⟨looking, moved, hlooking, hchecking, hpending⟩, htook, hbeside⟩ := woken.takes
  have hannounced := (h.core_steps (.single (System.aside_polled actor.system actor.heads))).step
    (.heads hlooking hchecking hpending)
  exact ⟨_, hannounced, rfl, rfl, ⟨rfl, rfl⟩, ⟨rfl, rfl⟩, rfl, htook, hbeside⟩

/-- With nothing more to take both readers go to sleep. -/
theorem Actor.Runs.sleeps (h : Actor.Runs contents egress admits actor) (idle : actor.system.mainloop = .idle)
    (home : actor.refresh = Refresh.default) (apart : actor.nodes ≠ actor.heads) (nodes : actor.system.Sated actor.nodes)
    (heads : actor.system.Sated actor.heads) : ∃ actor', Actor.Runs contents egress admits actor' ∧ actor'.Rests ∧
      actor'.system.chain = actor.system.chain ∧ actor'.system.store = actor.system.store ∧ actor'.peers = actor.peers := by
  obtain ⟨sub, hsub, hidle, hnothing, hunwoken⟩ := nodes
  obtain ⟨sub', hsub', hidle', hnothing', hunwoken'⟩ := heads
  have hdozed := System.subscription_dozed hsub hidle hnothing hunwoken idle
  have hheads := (hdozed actor.heads).trans ((if_neg apart).trans hsub')
  have hdozed' := System.subscription_dozed hheads hidle' hnothing' hunwoken' idle
  have hslept := (h.core_steps (System.dozes hsub hnothing)).core_steps (System.dozes hheads hnothing')
  refine ⟨_, hslept, ⟨idle, ?_, by rw [home]; rfl⟩, rfl, rfl, rfl⟩
  rintro id (rfl | rfl)
  · exact ⟨_, (hdozed' _).trans ((if_neg apart.symm).trans ((hdozed _).trans (if_pos rfl))), rfl, hunwoken⟩
  · exact ⟨_, (hdozed' _).trans (if_pos rfl), rfl, hunwoken'⟩

/-- An actor just spawned that read the nodes once, and heard of nothing meanwhile, rests. -/
theorem Actor.Runs.exists_rests {σ : System} (core : System.Runs contents σ) (alive : σ.mainloop = .idle) {desired : Desired}
    (listed : σ.peerAddresses = .ok desired) (admitted : admits .empty desired) :
    ∃ actor, Actor.Runs contents egress admits actor ∧ actor.Rests ∧ actor.system.chain = σ.chain ∧
      actor.system.store = σ.store ∧ actor.peers = egress.reconcile desired .empty := by
  obtain ⟨hnodes, hheads⟩ := subscription_spawn σ
  have hout : (Actor.spawn σ).reads = [] ++ .out :: [] := rfl
  have hread : Actor.Runs contents egress admits _ := .step (.spawned core alive) (.reads alive hout)
  have hback : ([] ++ .back (Actor.spawn σ).system.peerAddresses :: [] : List Read) = [] ++ .back (.ok desired) :: [] :=
    congrArg (fun found => [Trip.back found]) listed
  have hlanded := hread.step (.lands hback fun desired' h => by cases h; exact admitted)
  exact hlanded.sleeps alive rfl (Nat.ne_of_lt (Nat.lt_succ_self _)) ⟨_, hnodes, rfl, rfl, rfl⟩ ⟨_, hheads, rfl, rfl, rfl⟩

/-- What the core inserts is published to both subscriptions of an actor at rest. -/
theorem Actor.Rests.wakes (laws : DigestLaws contents) (h : Actor.Runs contents egress admits actor) (rests : actor.Rests)
    {envelopes : List Envelope} (content : ∀ e ∈ envelopes, e.toSignedPortion ∈ contents) {p : Published}
    (published : (Lotusd.insert actor.system.chain actor.system.store envelopes).published = some p)
    (selected : (ChangeFilter.of (.namespace clusterNodesKey)).matches p.movement = true) :
    ∃ σ, Actor.Runs contents egress admits { actor with system := σ } ∧ σ.mainloop = .idle ∧
      (σ.chain = (actor.system.insert envelopes).chain ∧ σ.store = (actor.system.insert envelopes).store) ∧
      σ.Woken actor.nodes ∧ σ.Woken actor.heads := by
  obtain ⟨-, -, -, ⟨nodes, hnodes, hfilter, hblocked⟩, heads, hheads, hfilter', hblocked'⟩ := rests.quiet laws h
  have hinserted : Actor.Runs contents egress admits { actor with system := actor.system.insert envelopes } :=
    .step h (.core (.insert rests.mainloop content) fun id _ sub hsub =>
      ⟨sub, (System.subscription_insert _ _).trans hsub, rfl⟩)
  obtain ⟨σ, steps, hidle, hsame, hwoken⟩ := System.insert_tells contents published
  refine ⟨σ, hinserted.core_steps steps, hidle, hsame, ?_, ?_⟩
  · exact hwoken hnodes (by rw [hfilter]; exact selected) hblocked
  · exact hwoken hheads (by rw [hfilter']; rfl) hblocked'

/-- Where the core inserts something that moves the nodes, an actor at rest comes to rest again, having read
them once more. -/
theorem Actor.Runs.rests_again (laws : DigestLaws contents) (h : Actor.Runs contents egress admits actor)
    (rests : actor.Rests) {envelopes : List Envelope} (content : ∀ e ∈ envelopes, e.toSignedPortion ∈ contents) {p : Published}
    (published : (Lotusd.insert actor.system.chain actor.system.store envelopes).published = some p)
    (selected : (ChangeFilter.of (.namespace clusterNodesKey)).matches p.movement = true) {desired : Desired}
    (listed : (actor.system.insert envelopes).peerAddresses = .ok desired) (admitted : admits actor.peers desired) :
    ∃ actor', Actor.Runs contents egress admits actor' ∧ actor'.Rests ∧
      actor'.system.chain = (actor.system.insert envelopes).chain ∧
      actor'.system.store = (actor.system.insert envelopes).store ∧ actor'.peers = egress.reconcile desired actor.peers := by
  obtain ⟨hrefresh, hreads, hapart, -⟩ := rests.quiet laws h
  obtain ⟨σ, hrun, hidle, ⟨hchain, hstore⟩, hnodes, hheads⟩ := rests.wakes laws h content published selected
  have hlisted : σ.peerAddresses = .ok desired := (System.peerAddresses_congr hchain hstore).trans listed
  obtain ⟨read, hread, hidle₁, hhome₁, ⟨hn₁, hh₁⟩, ⟨hchain₁, hstore₁⟩, hpeers₁, hsated, hbeside⟩ :=
    hrun.rereads hidle hrefresh hreads hnodes hlisted admitted
  have hheads₁ : read.system.Woken read.heads := by
    obtain ⟨sub, moved, hsub, hrest⟩ := hheads
    exact ⟨sub, moved, by rw [hh₁]; exact (hbeside actor.heads hapart).trans hsub, hrest⟩
  obtain ⟨told, htold, hidle₂, hhome₂, ⟨hn₂, hh₂⟩, ⟨hchain₂, hstore₂⟩, hpeers₂, hsated', hbeside'⟩ := hread.announces hheads₁
  have hapart' : read.heads ≠ read.nodes := by
    rw [hn₁, hh₁]
    exact hapart.symm
  have hsated₂ : told.system.Sated told.nodes := by
    obtain ⟨sub, hsub, hrest⟩ := hsated
    exact ⟨sub, by rw [hn₂]; exact (hbeside' read.nodes hapart').trans hsub, hrest⟩
  obtain ⟨slept, hslept, hrests, hchain₃, hstore₃, hpeers₃⟩ := htold.sleeps (hidle₂.trans hidle₁) (hhome₂.trans hhome₁)
    (by rw [hn₂, hh₂]; exact hapart'.symm) hsated₂ hsated'
  exact ⟨slept, hslept, hrests, hchain₃.trans (hchain₂.trans (hchain₁.trans hchain)),
    hstore₃.trans (hstore₂.trans (hstore₁.trans hstore)), hpeers₃.trans (hpeers₂.trans hpeers₁)⟩

end Actor

end IrohLotus.Lotusd.PeerEgress

/-! ## A joiner beside its founder's chain -/

namespace IrohLotus.Lotusd.PeerEgress

open Std Outcome IrohLotus.Wire IrohLotus.Wire.Founded IrohLotus.Storage IrohLotus.State

/-- The joiner's own identity. -/
def joinerEgress : Egress := ⟨joinerId, joinerEndpoint⟩

/-- The founder's chain, as the joiner's core opened it. -/
def openedCore : System := ⟨foundedCore.chain, foundedCore.storage, [], .idle, []⟩

/-- What the joiner's core publishes once the founder moved. -/
theorem published_moved : ∃ p, (Lotusd.insert openedCore.chain openedCore.store [moved]).published = some p ∧
    (ChangeFilter.of (.namespace clusterNodesKey)).matches p.movement = true := by
  have hany : (Lotusd.insert openedCore.chain openedCore.store [moved]).published.any
      (fun p => (ChangeFilter.of (.namespace clusterNodesKey)).matches p.movement) = true := by
    decide +kernel
  exact (Option.any_eq_true _ _).1 hany

/-- And where it then finds the founder. -/
theorem listed_moved : ∃ desired, (openedCore.insert [moved]).peerAddresses = .ok desired ∧
    desired[founderId]? = some ⟨founderEndpoint, [.ip "192.0.2.1:4433"]⟩ := by
  have hfound : ((openedCore.insert [moved]).peerAddresses.toOption.bind fun desired =>
      desired[founderId]?.map fun addr => (addr.id, addr.addrs)) = some (founderEndpoint, [.ip "192.0.2.1:4433"]) := by
    decide +kernel
  obtain ⟨desired, hdesired, hlisted⟩ := Option.bind_eq_some_iff.1 hfound
  obtain ⟨⟨id, addrs⟩, haddr, hat⟩ := Option.map_eq_some_iff.1 hlisted
  cases hat
  exact ⟨desired, except_of_toOption_some hdesired, haddr⟩

/-- The nodes are read when the actor is spawned, and again once the founder moved. -/
theorem rests_following_moved : ∃ actor, Actor.Runs Set.univ joinerEgress (Unshadowed joinerEgress) actor ∧
    actor.system.peerAddresses = .ok actor.desired ∧ actor.announced = movedDigest ∧
    PeerEgress.Invariant joinerEgress actor.desired actor.peers ∧
    actor.desired[founderId]? = some ⟨founderEndpoint, [.ip "192.0.2.1:4433"]⟩ := by
  have hrunning : (openedCore.peerAddresses.toOption.map fun desired =>
      (joinerEgress.reconcile desired .empty).tasks.toList.all fun task => !task.2.cancelled) = some true := by
    decide +kernel
  obtain ⟨desired, hdesired, hall⟩ := Option.map_eq_some_iff.1 hrunning
  have hunshadowed : Unshadowed joinerEgress .empty desired := by
    intro node addr peer task _ hp
    simp [State.empty] at hp
  obtain ⟨first, hfirst, hrests, hchain, hstore, hpeers⟩ :=
    Actor.Runs.exists_rests (.start reachable_foundedCore) rfl (except_of_toOption_some hdesired) hunshadowed
  -- none of the tasks it spawned is cancelled
  have hunshadowed' : ∀ desired', Unshadowed joinerEgress first.peers desired' := by
    intro desired' node addr peer task _ _ _ htask
    rw [hpeers] at htask
    have hmem := ExtTreeMap.mem_toList_iff_getElem?_eq_some.2 htask
    simpa using List.all_eq_true.1 hall _ hmem
  have hinserted : (first.system.insert [moved]).chain = (openedCore.insert [moved]).chain ∧
      (first.system.insert [moved]).store = (openedCore.insert [moved]).store := System.insert_congr hchain hstore [moved]
  obtain ⟨desired', hdesired', hlisted⟩ := listed_moved
  have hagain : (first.system.insert [moved]).peerAddresses = .ok desired' :=
    (System.peerAddresses_congr hinserted.1 hinserted.2).trans hdesired'
  obtain ⟨p, hp, hmatches⟩ := published_moved
  have hpublished : (Lotusd.insert first.system.chain first.system.store [moved]).published = some p := by
    rw [hchain, hstore]
    exact hp
  obtain ⟨actor, hruns, hrests', hchain', hstore', -⟩ := hfirst.rests_again founded_laws hrests (fun _ _ => Set.mem_univ _)
    hpublished hmatches hagain (hunshadowed' desired')
  obtain ⟨hread, hannounced, hfollows⟩ := hruns.rests_following founded_laws hrests'
  have hhead : (openedCore.insert [moved]).chain.head = movedDigest := by decide +kernel
  have hknown : actor.system.peerAddresses = .ok desired' := (System.peerAddresses_congr hchain' hstore').trans hagain
  refine ⟨actor, hruns, hread, ?_, hfollows fun _ _ h => h, ?_⟩
  · rw [hannounced, hchain', hinserted.1, hhead]
  · rw [hread] at hknown
    cases hknown
    exact hlisted

end IrohLotus.Lotusd.PeerEgress
